import Confidential.Proofs.Reports

/-!
Looking up a name from the inside out finds what lexical scoping makes visible, apart from variables that
one statement declares together.
-/

namespace Confidential

open List Node Pass

variable {p : Program} {x : String} {c n : Node} {t : Names}

theorem Declares.nextDeclaration {d : Node} (declares : Declares p d)
    (names : p.names n = .ok t) (lookup : t.lookup x = some d.nameId) (rest : List Node) :
    p.nextDeclaration c x (n :: rest) = match p.parent? d with
      | some s => if s.isVariableStatement && p.isInside s c then p.nextDeclaration c x rest else .ok (some (n,rest,d))
      | none => .ok (some (n,rest,d)) := by
  rw [Program.nextDeclaration,names]
  cases parent : p.parent? d <;>
    simp only [bind,Except.bind,lookup,declares.parent,pure,Except.pure,declares.node,parent]

/-- What the search does at one level: it goes on, or stops there. -/
theorem Level.nextDeclaration {child : Node} (level : Level p x n child c t) (names : p.names n = .ok t) (rest : List Node) :
    (p.nextDeclaration c x (n :: rest) = p.nextDeclaration c x rest ∧ (n.visibleTo p child).find? (·.isCalled x) = none) ∨
    ∃ d, p.nextDeclaration c x (n :: rest) = .ok (some (n,rest,d)) ∧
      (((n.isForLoop || n.isBlock) && d.isVariable) = false ∧ (n.visibleTo p child).find? (·.isCalled x) = some d ∨
      ((n.isForLoop || n.isBlock) && d.isVariable) ∧ ∃ early, p.isBeforeDeclaration n c d = .ok early ∧
        (n.visibleTo p child).find? (·.isCalled x) = if early then none else some d) := by
  cases level with
  | unlisted lookup visible =>
    refine .inl ⟨?_,visible⟩
    rw [Program.nextDeclaration,names]
    simp only [bind,Except.bind,lookup]
  | own lookup declares parent statement inside visible =>
    refine .inl ⟨?_,visible⟩
    rw [declares.nextDeclaration names lookup,parent]
    simp only [statement,inside,Bool.and_self,if_true]
  | @member d lookup declares outside plain visible =>
    refine .inr ⟨d,?_,.inl ⟨by rw [plain,Bool.false_and],visible⟩⟩
    rw [declares.nextDeclaration names lookup]
    cases parent : p.parent? d with
    | none => rfl
    | some s => simp [outside s parent]
  | @step d s early lookup declares parent outside kind var before visible =>
    refine .inr ⟨d,?_,.inr ⟨by rw [kind,var,Bool.and_self],early,before,visible⟩⟩
    rw [declares.nextDeclaration names lookup,parent]
    simp [outside]

def Program.isShown (p : Program) (n : Node) : Bool :=
  Report.isShown n.line n.column p.lines

theorem Program.run_findDeclaration (p : Program) (c : Node) (x : String) :
    (findDeclaration c x).run p = match p.declarationIn x ((p.ancestors c).length + 1) c (p.ancestors c) with
      | .ok (some d) => (.ok d,p)
      | .ok none =>
        match p.report (findDeclaration.lastSearched p x ((p.ancestors c).length + 1) c (p.ancestors c))
          s!"Undefined identifier {x}" with
        | .ok message => (.error (.unknownName message),p)
        | .error e => (.error e,p)
      | .error e => (.error e,p) := by
  unfold findDeclaration
  rw [run_bind,show (get : Pass Program).run p = (.ok p,p) from rfl]
  dsimp only
  rw [run_bind,show (ofOutcome _ : Pass (Option Node)).run p = (p.declarationIn x _ c _,p) from rfl]
  cases p.declarationIn x ((p.ancestors c).length + 1) c (p.ancestors c) with
  | error => rfl
  | ok r =>
    cases r with
    | some => rfl
    | none =>
      dsimp only
      unfold refuse
      rw [run_bind,run_ask]
      cases p.report _ _ <;> rfl

namespace Scoped

variable {p : Program} {first : Nat} {root : Node} (h : Scoped p first root)
include h

variable {b : Binding} {around : List Node} {c : Node} {x : String}

variable {inner rest : List Node} {fuel : Nat} {s : Scope}

theorem declarationIn_eq (path : Path root (inner ++ rest) c)
    (roles : ∀ m ∈ c :: (inner ++ rest), m.role ∈ Role.around) (hx : x ≠ "_") (enough : rest.length ≤ fuel) :
    p.declarationIn x (fuel + 1) c rest = .ok (p.resolve x (inner.getLastD c) rest) := by
  induction rest generalizing inner c fuel with
  | nil => rfl
  | cons n rest ih =>
    obtain ⟨t,names,level⟩ := h.exists_level path roles hx
    rw [Program.resolve]
    obtain ⟨next,visible⟩ | ⟨d,next,⟨member,visible⟩ | ⟨step,early,before,visible⟩⟩ :=
      level.nextDeclaration names rest
    · have skip : p.declarationIn x (fuel + 1) c (n :: rest) = p.declarationIn x (fuel + 1) c rest := by
        rw [Program.declarationIn,Program.declarationIn,next]
      rw [append_cons] at path roles
      rw [skip,ih path roles (Nat.le_of_succ_le enough),visible,Option.none_or,getLastD_concat]
    · rw [Program.declarationIn,next,visible,Option.some_or]
      simp only [bind,Except.bind,member]
      rfl
    · rw [Program.declarationIn,next,visible]
      simp only [bind,Except.bind,step,before]
      cases early with
      | false => rfl
      | true =>
        cases fuel with
        | zero => cases enough
        | succ =>
          -- The search starts again at the block or loop itself.
          have roles' : ∀ m ∈ n :: ([] ++ rest), m.role ∈ Role.around := fun m hm =>
            roles m (mem_cons_of_mem _ (mem_append_right _ hm))
          have path' : Path root ([] ++ rest) n := path.suffix
          exact ih path' roles' (Nat.le_of_succ_le_succ enough)

theorem lastSearched_cases (path : Path root (inner ++ rest) c)
    (roles : ∀ m ∈ c :: (inner ++ rest), m.role ∈ Role.around) (hx : x ≠ "_")
    (enough : rest.length ≤ fuel) (unknown : p.resolve x (inner.getLastD c) rest = none) :
    findDeclaration.lastSearched p x (fuel + 1) c rest = c ∨ ∃ m before after, rest = before ++ m :: after ∧
      (m.isForLoop || m.isBlock) ∧ findDeclaration.lastSearched p x (fuel + 1) c rest = m := by
  induction rest generalizing inner c fuel with
  | nil => exact .inl rfl
  | cons n rest ih =>
    obtain ⟨t,names,level⟩ := h.exists_level path roles hx
    rw [Program.resolve,Option.or_eq_none_iff] at unknown
    obtain ⟨next,-⟩ | ⟨d,next,⟨-,visible⟩ | ⟨step,early,before,visible⟩⟩ := level.nextDeclaration names rest
    · have skip : findDeclaration.lastSearched p x (fuel + 1) c (n :: rest) =
          findDeclaration.lastSearched p x (fuel + 1) c rest := by
        rw [findDeclaration.lastSearched,findDeclaration.lastSearched,next]
      rw [append_cons] at path roles
      rw [skip]
      refine (ih path roles (Nat.le_of_succ_le enough) ?_).imp_right ?_
      · rw [getLastD_concat]
        exact unknown.2
      · rintro ⟨m,before,after,rfl,kind,eq⟩
        exact ⟨m,n :: before,after,rfl,kind,eq⟩
    · rw [visible] at unknown
      cases unknown.1
    · have again : findDeclaration.lastSearched p x (fuel + 1) c (n :: rest) =
          findDeclaration.lastSearched p x fuel n rest := by
        rw [findDeclaration.lastSearched,next]
      rw [again]
      cases fuel with
      | zero => cases enough
      | succ =>
        have roles' : ∀ m ∈ n :: ([] ++ rest), m.role ∈ Role.around := fun m hm =>
          roles m (mem_cons_of_mem _ (mem_append_right _ hm))
        have path' : Path root ([] ++ rest) n := path.suffix
        refine .inr ?_
        obtain eq | ⟨m,before,after,rfl,kind,eq⟩ := ih path' roles' (Nat.le_of_succ_le_succ enough) unknown.2
        · exact ⟨n,[],rest,rfl,(Bool.and_eq_true_iff.1 step).1,eq⟩
        · exact ⟨m,n :: before,after,rfl,kind,eq⟩

theorem findDeclaration_eq (path : Path root around c)
    (roles : ∀ m ∈ c :: around, m.role ∈ Role.around) (hx : x ≠ "_") :
    (findDeclaration c x).run p = match p.resolve x c around with
      | some d => (.ok d,p)
      | none =>
        match p.report (findDeclaration.lastSearched p x (around.length + 1) c around) s!"Undefined identifier {x}" with
        | .ok message => (.error (.unknownName message),p)
        | .error e => (.error e,p) := by
  have ancestors := h.holds.ancestors_eq path (isLeaflet_of_role (roles c mem_cons_self))
  have path' : Path root ([] ++ around) c := path
  have found := h.declarationIn_eq path' roles hx (Nat.le_refl around.length)
  rw [Program.run_findDeclaration,ancestors,found]
  cases resolved : p.resolve x c around <;> simp [resolved]

theorem report_unknown {u : Node} (seen : Sees p root around u s)
    (name : u.isName) (roles : ∀ m ∈ u :: around, m.role ∈ Role.around) (hx : x ≠ "_")
    (unknown : p.resolve x u around = none) (message : String) :
    if inLibraryFunction around && p.isShown (findDeclaration.lastSearched p x (around.length + 1) u around) then
      p.report (findDeclaration.lastSearched p x (around.length + 1) u around) message = .error .violated
    else ∃ text, p.report (findDeclaration.lastSearched p x (around.length + 1) u around) message = .ok text := by
  have path : Path root ([] ++ around) u := seen.path
  have plain : inLibraryFunction (u :: around) = inLibraryFunction around := by
    cases u <;> first | rfl | cases name
  obtain eq | ⟨m,before,after,split,kind,eq⟩ := h.lastSearched_cases path roles hx (le_rfl) unknown
  · rw [eq,← plain]
    exact h.report_cases seen roles (.inl name) message
  · have steps : (m.role = .block ∨ m.role = .loop) ∧ m.isStatement := by
      cases m with
      | statements _ k => cases k <;> first | exact ⟨.inl rfl,rfl⟩ | cases kind
      | _ => first | exact ⟨.inr rfl,rfl⟩ | cases kind
    have role : m.role ≠ .source := by
      obtain role | role := steps.1 <;> rw [role] <;> decide
    obtain ⟨t,seen'⟩ := seen.of_append split h.source role
    have roles' : ∀ k ∈ m :: after, k.role ∈ Role.around := fun k hk =>
      roles k (mem_cons_of_mem _ (split ▸ mem_append_right _ hk))
    rw [eq,← plain,← h.inLibraryFunction_eq seen split steps.2 role]
    exact h.report_cases seen' roles' (.inr steps.1) message

/-- Where a visible declaration stands: variables that one statement declares together are below a node
that the analyses do not look into. -/
def Stands (root : Node) (first : Nat) (b : Binding) : Prop :=
  if b.grouped then ∃ m ∈ root.subtrees, b.declaration ∈ m.parts ∧ m.children = []
  else (∃ n outer, Path root (n :: outer) b.declaration) ∨ b.declaration.id < first

theorem stands_outermost (hb : b ∈ p.outermost) (called : b.declaration.isCalled x) : Stands root first b := by
  obtain hb | hb := mem_append.1 hb
  · obtain ⟨d,hd,rfl⟩ := mem_map.1 hb
    obtain ⟨e,he,eq⟩ := mem_filterMap.1 (mem_reverse.1 hd)
    obtain ⟨d',builtin,lt⟩ := h.builtins e he
    rw [builtin.parent,Option.map_some,builtin.declares.node,Option.some.injEq] at eq
    exact .inr (eq ▸ lt)
  · obtain ⟨d,hd,rfl⟩ := mem_map.1 hb
    rw [mem_reverse,Program.contracts,h.tree_eq] at hd
    refine .inl ⟨root,[],.child .root (mem_filter.2 ⟨?_,by rw [isOmitted_of called rfl]; rfl⟩)⟩
    obtain ⟨i,as,bs,single,rfl⟩ := exists_of_isSource (isSource_iff.2 h.source)
    exact (mem_filter.1 hd).1

theorem stands_locals {n m : Node} (path : Path root around n) (hm : m ∈ n.children)
    (hb : b ∈ m.locals) : Stands root first b := by
  have step := Path.child path hm
  cases m with
  | variableStatement =>
    cases mem_singleton.1 hb
    obtain ⟨-,-,-,child⟩ := of_local (step.proper h.proper) rfl
    exact .inl ⟨_,_,.child step child⟩
  | variablesStatement =>
    obtain ⟨d,hd,rfl⟩ := mem_map.1 hb
    have part := (mem_filter.1 (mem_reverse.1 hd)).1
    exact ⟨_,step.mem_subtrees,mem_append_left _ part,rfl⟩
  | _ => cases hb

theorem stands_of_sees (seen : Sees p root around c s)
    (hb : b ∈ s) (called : b.declaration.isCalled x) : Stands root first b := by
  induction seen with
  | unit => exact h.stands_outermost hb called
  | @child around n c s t outer name type mem ih =>
    have path := outer.path
    unfold scopes at mem
    split at mem
    · obtain ⟨before,after,eq,rfl⟩ := mem_inTurn mem
      obtain hb | hb := mem_append.1 hb
      · obtain ⟨m,hm,hb⟩ := mem_flatMap.1 hb
        exact h.stands_locals path (by rw [eq]; simp [mem_reverse.1 hm]) hb
      · exact ih hb
    · obtain ⟨c,-,eq⟩ := mem_map.1 mem
      cases eq
      obtain hb | hb := mem_append.1 hb
      · obtain ⟨d,hd,rfl⟩ := mem_map.1 hb
        exact .inl ⟨n,around,.child path (child_of_member (mem_reverse.1 hd) called)⟩
      · exact ih hb

theorem declaration_ne {b' : Binding} (stands : Stands root first b) (stands' : Stands root first b')
    (grouped : b.grouped) (single : b'.grouped = false) (solid : b.declaration.isLeaflet = false) :
    b'.declaration ≠ b.declaration := by
  intro same
  rw [Stands,if_pos grouped] at stands
  rw [Stands,if_neg (by simp [single]),same] at stands'
  obtain ⟨m,hm,part,void⟩ := stands
  obtain ⟨n,outer,path⟩ | lt := stands'
  · cases path with
    | child path hc =>
      have eq := eq_of_part h.holds.nodup path.mem_subtrees hm (part_of_child hc) part solid
      rw [eq,void] at hc
      cases hc
  · have range := h.holds.range b.declaration (mem_of_part hm part) solid
    exact Nat.lt_irrefl _ (lt.trans_le range.1)

end Scoped

namespace Scope

variable {s : Scope} {x : String}

variable {b : Binding}

theorem mem_of_find (found : s.find x = some b) : b ∈ s ∧ b.declaration.isCalled x := by
  unfold find at found
  exact ⟨mem_of_find?_eq_some found,by simpa using find?_some found⟩

theorem find?_single (found : s.find x = some b) (single : b.grouped = false) :
    s.single.find? (·.isCalled x) = some b.declaration := by
  unfold find at found
  unfold Scope.single
  induction s with
  | nil => cases found
  | cons e _ ih =>
    rw [find?_cons] at found
    cases called : e.declaration.isCalled x with
    | true =>
      rw [called] at found
      cases found
      rw [filter_cons_of_pos (by rw [single]; rfl),map_cons,find?_cons_of_pos called]
    | false =>
      rw [called] at found
      rw [filter_cons]
      split
      · rw [map_cons,find?_cons_of_neg (by simp [called])]
        exact ih found
      · exact ih found

theorem exists_of_find?_single {d : Node} (found : s.single.find? (·.isCalled x) = some d) :
    ∃ b ∈ s, b.grouped = false ∧ b.declaration = d ∧ d.isCalled x := by
  obtain ⟨b,hb,eq⟩ := mem_map.1 (mem_of_find?_eq_some found)
  obtain ⟨hb,single⟩ := mem_filter.1 hb
  exact ⟨b,hb,by simpa using single,eq,find?_some found⟩

end Scope

variable {root u : Node} {around : List Node}

/-- The search for the name `u` gives the declaration that is visible, or reports that there is none. -/
def Program.Resolves (p : Program) (u : Node) (x : String) (visible : Scope) : Prop :=
  match visible.find x with
  | some b => (findDeclaration u x).run p = (.ok b.declaration,p)
  | none => ∃ message, (findDeclaration u x).run p = (.error (.unknownName message),p)

theorem Scoped.resolves_iff {p : Program} {first : Nat} {visible : Scope}
    {x : String} (h : Scoped p first root) (seen : Sees p root around u visible) (name : u.isName)
    (roles : ∀ m ∈ u :: around, m.role ∈ Role.around) (hx : x ≠ "_") :
    p.Resolves u x visible ↔ match visible.find x with
      | some b => b.grouped = false
      | none => (inLibraryFunction around &&
          p.isShown (findDeclaration.lastSearched p x (around.length + 1) u around)) = false := by
  have solid := isLeaflet_of_role (roles u mem_cons_self)
  have pos : 0 < u.id := h.holds.pos.trans_le (h.holds.range u seen.path.mem_subtrees solid).1
  have single := h.single_eq seen pos x
  have outcome := h.findDeclaration_eq seen.path roles hx
  unfold Program.Resolves
  cases found : visible.find x with
  | some =>
    obtain ⟨mem,called⟩ := Scope.mem_of_find found
    have stands := h.stands_of_sees seen mem called
    dsimp only
    constructor
    · intro run
      refine Bool.eq_false_iff.2 fun grouped => ?_
      rw [outcome,← single] at run
      cases first : visible.single.find? (·.isCalled x) with
      | some =>
        rw [first] at run
        cases run
        obtain ⟨b',hb,alone,eq,called'⟩ := Scope.exists_of_find?_single first
        have stands' := h.stands_of_sees seen hb (eq ▸ called')
        exact h.declaration_ne stands stands' grouped alone (isLeaflet_of called fun _ => rfl) eq
      | none =>
        rw [first] at run
        dsimp only at run
        split at run <;> cases run
    · intro alone
      rw [outcome,← single,Scope.find?_single found alone]
  | none =>
    have unknown : p.resolve x u around = none := by
      rw [← single]
      cases first : visible.single.find? (·.isCalled x) with
      | none => rfl
      | some =>
        obtain ⟨b,hb,-,rfl,called⟩ := Scope.exists_of_find?_single first
        exact absurd called (find?_eq_none.1 found b hb)
    have report := h.report_unknown seen name roles hx unknown s!"Undefined identifier {x}"
    rw [unknown] at outcome
    dsimp only at outcome ⊢
    rw [outcome]
    split at report
    next lost =>
      rw [report,lost]
      refine iff_of_false ?_ (by simp)
      rintro ⟨message,eq⟩
      cases eq
    next fine =>
      obtain ⟨text,report⟩ := report
      rw [report]
      exact iff_of_true ⟨text,rfl⟩ (by simpa using fine)

/-- The search for a name gives what lexical scoping makes visible, or reports an unknown name if nothing
is visible, exactly if what is visible was declared on its own, and a name that is not visible stands outside
of the functions of libraries. -/
theorem resolves_lexically_iff {settings : Settings} {text : String} {p : Program}
    (run : Runs (loadScopes text) { Globals.base with settings } () p) {around : List Node} {i j : Info} {x : String}
    (path : Path p.tree around (.name i (.identifier j x)))
    (inside : ∃ m ∈ around, (m.isContract || m.isLibrary) = true) (plain : ∀ m ∈ around, m.isType = false)
    (hx : x ≠ "_") :
    (∃ visible, (.name i (.identifier j x),visible) ∈ p.uses) ∧
    ∀ visible, (.name i (.identifier j x),visible) ∈ p.uses →
      (p.Resolves (.name i (.identifier j x)) x visible ↔ match visible.find x with
        | some b => b.grouped = false
        | none => (inLibraryFunction around && p.isShown (findDeclaration.lastSearched p x (around.length + 1)
            (.name i (.identifier j x)) around)) = false) := by
  obtain ⟨root,h⟩ := scoped_of_runs (equipped_settings settings) run
  have tree := h.tree_eq
  subst tree
  constructor
  · have inside' : ∃ m ∈ .name i (.identifier j x) :: around, (m.isContract || m.isLibrary) = true :=
      inside.imp fun m hm => ⟨.tail _ hm.1,hm.2⟩
    obtain ⟨visible,seen⟩ := path.sees (p := p) h.proper h.source inside' plain (by simp [role])
    exact ⟨visible,seen.mem_uses (by rw [uses_eq]; simp [isName])⟩
  · intro visible mem
    obtain ⟨c,hc,mem⟩ := mem_flatMap.1 mem
    obtain ⟨child,kind⟩ := mem_filter.1 hc
    obtain ⟨inner,seen⟩ := (Sees.unit child kind).of_mem_uses mem
    obtain ⟨-,eq⟩ := h.holds.path_unique path seen.path rfl rfl rfl
    rw [eq] at seen
    have roles : ∀ m ∈ .name i (.identifier j x) :: around, m.role ∈ Role.around := by
      obtain roles | closed | types := seen.role h.proper h.source
      · exact roles
      · exact absurd closed (by simp [role,Role.closed])
      · exact absurd types (by simp [role,Role.types])
    exact h.resolves_iff seen rfl roles hx

def strayName : String :=
  "pragma cloak ^0.2.0;\nlibrary L \x7b\n    function f() public \x7b\n        x = 1;\n    \x7d\n\x7d\n"

/-- The node that is reached through these children, one in the other, with the nodes around it. -/
def Node.follow (around : List Node) (n : Node) : List Nat → Option (List Node × Node)
  | [] => some (around,n)
  | k :: ks => (n.children[k]?).bind fun c => follow (n :: around) c ks

theorem Node.path_of_follow {n : Node} {outer : List Node} {ks : List Nat} (path : Path root outer n)
    (h : follow outer n ks = some (around,u)) : Path root around u := by
  induction ks generalizing n outer with
  | nil =>
    cases h
    exact path
  | cons _ _ ih =>
    obtain ⟨c,child,h⟩ := Option.bind_eq_some_iff.1 h
    exact ih (.child path (mem_of_getElem? child)) h

/-- Is there a use of `x` behind these children, outside of types and in a function of a library? -/
def Node.usesAt (n : Node) (x : String) (ks : List Nat) : Bool :=
  match n.follow [] ks with
  | some (around,.name _ (.identifier _ y)) => y == x && inLibraryFunction around && around.all (!·.isType)
  | _ => false

theorem strayName_resolves_iff : ∃ p around i j, Runs (loadScopes strayName) { Globals.base with settings := {} } () p ∧
    Path p.tree around (.name i (.identifier j "x")) ∧ inLibraryFunction around ∧
    (∃ visible, (.name i (.identifier j "x"),visible) ∈ p.uses) ∧
    ∀ visible, (.name i (.identifier j "x"),visible) ∈ p.uses →
      (p.Resolves (.name i (.identifier j "x")) "x" visible ↔ match visible.find "x" with
        | some b => b.grouped = false
        | none => (inLibraryFunction around && p.isShown (findDeclaration.lastSearched p "x" (around.length + 1)
            (.name i (.identifier j "x")) around)) = false) := by
  have chars : strayName = String.ofList _ := rfl
  have evaluated : (loadScopes strayName).succeeds { Globals.base with settings := {} }
      (fun _ p => p.tree.usesAt "x" [1,0,1,0,0]) = true := by
    rw [loadScopes,load_eq chars]
    decide +kernel
  obtain ⟨_,p,run,evaluated⟩ := of_succeeds evaluated
  unfold usesAt at evaluated
  split at evaluated
  next around i j x found =>
    simp only [Bool.and_eq_true,beq_iff_eq,all_eq_true,Bool.not_eq_true'] at evaluated
    obtain ⟨⟨rfl,lib⟩,plain⟩ := evaluated
    have path := path_of_follow .root found
    have inside : ∃ m ∈ around, (m.isContract || m.isLibrary) = true := by
      simp only [inLibraryFunction,Bool.and_eq_true,any_eq_true] at lib
      exact lib.2.imp fun m hm => ⟨hm.1,by rw [hm.2,Bool.or_true]⟩
    exact ⟨p,around,i,j,run,path,lib,resolves_lexically_iff run path inside plain (by decide)⟩
  next => cases evaluated

end Confidential
