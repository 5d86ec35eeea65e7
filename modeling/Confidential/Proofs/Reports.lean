import Confidential.Proofs.Levels

/-!
Messages about nodes of a source.
-/

namespace Confidential

open List

namespace Report

def isShown (line column : Int) (source : List String) : Bool :=
  0 < line && 0 < column && line ≤ source.length

theorem exists_entry {α : Type} (xs : List α) {i : Int} (low : -1 ≤ i) (high : i < xs.length) (full : 0 < xs.length) :
    ∃ x, entry xs i = .ok x := by
  unfold entry
  dsimp only
  have range : 0 ≤ (if i < 0 then i + xs.length else i) ∧ (if i < 0 then i + xs.length else i) < xs.length := by
    split <;> omega
  generalize (if i < 0 then i + (xs.length : Int) else i) = j at range
  rw [if_neg (by omega),getElem?_eq_getElem (by omega)]
  exact ⟨_,rfl⟩

variable {line : Int} {source : List String}

variable {column : Int}

theorem exists_excerpt {first : Int} (low : 0 ≤ first) (pos : 0 < line)
    (high : line ≤ source.length) : ∃ text, excerpt source first (line + 1 - first).toNat = .ok text := by
  have each : ∀ k ∈ List.range (line + 1 - first).toNat, ∃ shown : String,
      (do return expandTabs (← entry source (first + k - 1)) ++ "\n") = (.ok shown : Outcome String) := by
    intro k hk
    rw [mem_range] at hk
    obtain ⟨shown,eq⟩ := exists_entry source (i := first + k - 1) (by omega) (by omega) (by omega)
    exact ⟨_,by rw [eq]; rfl⟩
  obtain ⟨lines,eq⟩ := Outcome.exists_mapM each
  exact ⟨String.join lines,by rw [excerpt,eq]; rfl⟩

theorem location_violated (shown : isShown line column source) (function : String) (statementLine : Option Int) :
    location line column source none (some function) statementLine = .error .violated := by
  simp only [isShown,Bool.and_eq_true,decide_eq_true_eq] at shown
  unfold location
  dsimp only
  rw [if_neg (by simp; omega)]
  rfl

theorem exists_location {contract function : Option String}
    {statementLine : Option Int} (low : ∀ first, statementLine = some first → -1 ≤ first)
    (known : isShown line column source → function.isSome → contract.isSome) :
    ∃ text, location line column source contract function statementLine = .ok text := by
  unfold location
  dsimp only
  split
  next => exact ⟨_,rfl⟩
  next inside =>
    have shown : isShown line column source := by
      simp only [isShown,Bool.and_eq_true,decide_eq_true_eq]
      simp at inside
      omega
    specialize known shown
    simp only [isShown,Bool.and_eq_true,decide_eq_true_eq] at shown
    -- The lines from the start of the statement to the place can be shown.
    have tail (head : String) : ∃ text, (if statementLine.getD line = -1 then pure head else do
        let body ← excerpt source (statementLine.getD line) (line + 1 - statementLine.getD line).toNat
        let last ← entry source (line - 1)
        return head ++ body ++ pointer last (column - 1).toNat) = (.ok text : Outcome String) := by
      split
      next => exact ⟨head,rfl⟩
      next bare =>
        have low : 0 ≤ statementLine.getD line := by
          cases statementLine with
          | none => exact Int.le_of_lt shown.1.1
          | some first =>
            have := low first rfl
            simp only [Option.getD_some] at bare ⊢
            omega
        obtain ⟨body,hb⟩ := exists_excerpt low shown.1.1 shown.2
        obtain ⟨last,hl⟩ := exists_entry source (i := line - 1) (by omega) (by omega) (by omega)
        exact ⟨_,by rw [hb,hl]; rfl⟩
    match function, contract, known with
    | some f, some c, _ => exact tail _
    | some f, none, known => cases known rfl
    | none, some c, _ => exact tail _
    | none, none, _ => exact tail _

end Report

open Node Pass

namespace Role

/-- Functions and modifiers, and whatever can be around them. -/
def outer : List Role :=
  [.routine,.contract,.library,.interface,.source]

theorem mem_outer_of_below {r r' : Role} (h : r' ∈ r.below) (hr : r' ∈ outer) : r ∈ outer := by
  revert r'
  cases r <;> decide

theorem parent_of_routine : ∀ r : Role, r ∈ around ∨ r ∈ closed ∨ r ∈ types → .routine ∈ r.below → r ≠ .source →
    r = .contract ∨ r = .library := by
  intro r
  cases r <;> decide

end Role

namespace Node

variable {around : List Node} {root : Node}

variable {p : Program} {c : Node} {s : Scope}

theorem Path.find?_source {n : Node} (path : Path root around n) (proper : root.Proper)
    (source : root.role = .source) : (n :: around).find? (·.isSource) = some root := by
  induction path with
  | root => rw [find?_cons_of_pos (isSource_iff.2 source)]
  | @child around n c outer hc ih =>
    rw [find?_cons_of_neg,ih]
    intro inner
    cases (Path.child outer hc).eq_root proper (isSource_iff.1 inner) |>.1

theorem Path.isStatement_eq_false {f : Node} (path : Path root around f)
    (proper : root.Proper) (hr : f.role ∈ Role.outer) : ∀ m ∈ around, m.isStatement = false := by
  induction path with
  | root => exact fun _ h => absurd h not_mem_nil
  | @child around n c outer hc ih =>
    have role := Role.mem_outer_of_below ((Path.child outer hc).role_mem_below proper) hr
    rw [forall_mem_cons]
    refine ⟨?_,ih role⟩
    cases n with
    | statements _ kind => cases kind <;> simp [Node.role,ListKind.role,Role.outer] at role
    | _ => first | rfl | simp [Node.role,Role.outer] at role

theorem Sees.of_append {m : Node} {inner outer : List Node}
    (seen : Sees p root around c s) (eq : around = inner ++ m :: outer) (source : root.role = .source)
    (role : m.role ≠ .source) : ∃ t, Sees p root outer m t := by
  induction seen generalizing inner with
  | unit =>
    have same : m ∈ [root] := by
      rw [eq]
      simp
    rw [mem_singleton.1 same] at role
    exact absurd source role
  | child seen _ _ _ ih =>
    cases inner with
    | nil =>
      cases eq
      exact ⟨_,seen⟩
    | cons =>
      cases eq
      exact ih rfl

theorem Sees.isLibrary_eq (seen : Sees p root around c s) (proper : root.Proper) (source : root.role = .source) :
    (c :: around).any (·.isLibrary) = !(c :: around).any (·.isContract) := by
  induction seen with
  | @unit c hc kind =>
    have outside : root.isContract = false ∧ root.isLibrary = false := by
      obtain ⟨i,as,bs,single,rfl⟩ := exists_of_isSource (isSource_iff.2 source)
      exact ⟨rfl,rfl⟩
    have other : c.isLibrary = !c.isContract := by
      cases c <;> first | rfl | cases kind
    simp [outside,other]
  | @child around n c s t outer name type mem ih =>
    have path := (outer.child name type mem).path
    have plain : (c.isContract || c.isLibrary) = false := by
      refine Bool.eq_false_iff.2 fun kind => ?_
      obtain ⟨rfl,-⟩ := path.eq_source proper kind
      cases outer
    rw [Bool.or_eq_false_iff] at plain
    rw [any_cons,plain.2,Bool.false_or,ih,any_cons (a := c),plain.1,Bool.false_or]

end Node

def Node.inLibraryFunction (around : List Node) : Bool :=
  around.any (·.isStatement) && around.any (·.isFunction) && around.any (·.isLibrary)

namespace Scoped

variable {p : Program} {first : Nat} {root : Node} (h : Scoped p first root)
include h

variable {around : List Node} {n : Node} {s : Scope}

variable {f : Node} {inner outer : List Node}

theorem mem_contracts (path : Path root around n) (kind : n.isContract) : n ∈ root.units.filter (·.isContract) := by
  have source := isSource_iff.2 h.source
  cases path with
  | root =>
    obtain ⟨i,as,bs,single,rfl⟩ := exists_of_isSource source
    cases kind
  | @child around m _ outer hc =>
    obtain ⟨rfl,rfl⟩ := (Path.child outer hc).eq_source h.proper (by rw [kind,Bool.true_or])
    refine mem_filter.2 ⟨?_,kind⟩
    obtain ⟨i,as,bs,single,rfl⟩ := exists_of_isSource source
    exact (mem_filter.1 hc).1

theorem mem_declared (path : Path root around n)
    (kind : n.role = .contract ∨ n.role = .library) (child : f ∈ n.children) (role : f.role = .routine) :
    f ∈ n.declared := by
  have definition : f.isNamespace := by
    cases f with
    | declaration _ kind | statements _ kind => cases kind <;> cases role
    | _ => first | rfl | cases role
  have visited := (mem_filter.1 child).1
  cases n with
  | contract =>
    obtain rfl | unit := mem_cons.1 visited
    · obtain ⟨e,j,named,-⟩ := h.named _ (h.mem_contracts path rfl)
      cases named
      cases role
    · exact mem_append_right _ (mem_filter.2 ⟨unit,definition⟩)
  | library => exact mem_filter.2 ⟨visited,definition⟩
  | declaration _ k => cases k <;> simp [Node.role,DeclKind.role] at kind
  | statements _ k => cases k <;> simp [Node.role,ListKind.role] at kind
  | _ => simp [Node.role] at kind

theorem exists_lists {c : Node} (seen : Sees p root around c s) :
    ∀ f ∈ c :: around, f.role = .routine → ∃ e, Lists f e := by
  induction seen with
  | @unit c hc kind =>
    intro f hf role
    obtain rfl | hf := mem_cons.1 hf
    · rw [isContract_or_isLibrary,role] at kind
      simp at kind
    · rw [mem_singleton.1 hf,h.source] at role
      cases role
  | @child around n c s t outer name type mem ih =>
    intro f hf role
    obtain rfl | hf := mem_cons.1 hf
    · have child := child_of_scope mem
      have below := (outer.child name type mem).path.role_mem_below h.proper
      have kind : n.role = .contract ∨ n.role = .library := by
        have inner : n.role ≠ .source := by
          intro source
          obtain ⟨rfl,-⟩ := outer.path.eq_root h.proper source
          cases outer
        rw [role] at below
        refine Role.parent_of_routine n.role ?_ below inner
        obtain all | closed | types := outer.role h.proper h.source
        · exact .inl (all n mem_cons_self)
        · exact .inr (.inl closed)
        · exact .inr (.inr types)
      have declared := h.mem_declared outer.path kind child role
      obtain own | ⟨carrier,-⟩ := h.tabled n outer.path.mem_preorder (by obtain kind | kind := kind <;> rw [kind] <;> decide)
      · unfold Own at own
        obtain kind | kind := kind <;> (rw [kind] at own; exact own.2 f declared)
      · obtain kind | kind := kind <;> (rw [kind] at carrier; exact absurd carrier (by decide))
    · exact ih f hf role

theorem statement_eq {i : Info} {a : Node} (path : Path root around (.name i a)) :
    p.statement (.name i a) = .ok ((around.find? (·.isStatement)).getD .omitted) := by
  rw [Program.statement,h.holds.statement around _ path rfl rfl]
  cases found : around.find? (·.isStatement) with
  | none => rfl
  | some =>
    obtain ⟨inner,outer,rfl⟩ := append_of_mem (mem_of_find?_eq_some found)
    have solid := isLeaflet_of (find?_some found) fun _ => rfl
    exact congrArg Except.ok (h.holds.node_eq path.suffix.mem_subtrees solid)

theorem function_eq {s : Node} (path : Path root around s) (kind : s.isStatement)
    (role : s.role ∈ Role.around) : p.function s = .ok ((around.find? (·.isFunction)).getD .omitted) := by
  rw [Program.function,h.holds.function around _ path kind (isLeaflet_of_role role)]
  cases found : around.find? (·.isFunction) with
  | none =>
    have bare : s.isBare = false := by
      cases s with
      | variablesStatement => simp [Node.role,Role.around] at role
      | _ => first | rfl | cases kind
    simp [kind,bare]
  | some =>
    obtain ⟨inner,outer,rfl⟩ := append_of_mem (mem_of_find?_eq_some found)
    have solid := isLeaflet_of (find?_some found) fun _ => rfl
    exact congrArg Except.ok (h.holds.node_eq path.suffix.mem_subtrees solid)

theorem closest?_eq (path : Path root around n) (solid : n.isLeaflet = false)
    (f : Node → Bool) : p.closest? f n = (n :: around).find? f := by
  rw [Program.closest?,h.holds.ancestors_eq path solid]

omit h in
theorem report_eq {stmt fct : Node} {contract? : Option Node} {contract function : Option String}
    (hs : (if n.isExpression then p.statement n else if n.isStatement then .ok n else .ok .omitted) = .ok stmt)
    (hf : (if !stmt.isOmitted then p.function stmt else if n.isFunction then .ok n else .ok .omitted) = .ok fct)
    (hc : p.closest? (·.isContract) (if fct.isOmitted then n else fct) = contract?)
    (hr : p.closest? (·.isSource) (contract?.getD n) = some root) (own : root.id = p.root)
    (hn : contract?.mapM Program.nameText = .ok contract)
    (hm : (if fct.isOmitted then pure none else some <$> Program.nameText fct) = (.ok function : Outcome (Option String)))
    (message : String) :
    p.report n message = (fun place => "\n" ++ place ++ "\n\n" ++ message) <$>
      Report.location n.line n.column p.lines contract function (if stmt.isOmitted then none else some stmt.line) := by
  -- Each choice is followed by the same steps.
  have choose {α : Type} {c : Prop} [Decidable c] {x y : Outcome α} {k : α → Outcome String} :
      (if c then x >>= k else y >>= k) = (if c then x else y) >>= k := by split <;> rfl
  unfold Program.report
  dsimp only
  simp only [choose]
  rw [hs]
  simp only [bind,Except.bind,hf,hc,hr,hn,hm,own,if_true]
  cases Report.location n.line n.column p.lines contract function (if stmt.isOmitted then none else some stmt.line) <;> rfl

theorem contract_around {k : Node} {around' : List Node} (path : Path root around k)
    (path' : Path root around' n) (solid : n.isLeaflet = false) :
    ∃ contract, ((k :: around).find? (·.isContract)).mapM Program.nameText = .ok contract ∧
      contract.isSome = (k :: around).any (·.isContract) ∧
      p.closest? (·.isSource) (((k :: around).find? (·.isContract)).getD n) = some root := by
  cases found : (k :: around).find? (·.isContract) with
  | none =>
    refine ⟨none,rfl,?_,?_⟩
    · rw [find?_eq_none] at found
      exact (any_eq_false.2 found).symm
    · rw [Option.getD_none,h.closest?_eq path' solid,path'.find?_source h.proper h.source]
  | some c =>
    have kind := find?_some found
    have mem := mem_of_find?_eq_some found
    obtain ⟨inner,outer,-,path⟩ := path.of_mem mem
    obtain ⟨e,i,named,-⟩ := h.named c (h.mem_contracts path kind)
    have solid := isLeaflet_of kind fun _ => rfl
    refine ⟨some e.1,?_,?_,?_⟩
    · rw [Option.mapM_some,Program.nameText,named]
      rfl
    · exact (any_eq_true.2 ⟨c,mem,kind⟩).symm
    · rw [Option.getD_some,h.closest?_eq path solid,path.find?_source h.proper h.source]

theorem exists_frame (path : Path root around n)
    (roles : ∀ m ∈ n :: around, m.role ∈ Role.around) (kind : n.isName ∨ n.role = .block ∨ n.role = .loop) :
    ∃ stmt fct, (if n.isExpression then p.statement n else if n.isStatement then .ok n else .ok .omitted) = .ok stmt ∧
      (if !stmt.isOmitted then p.function stmt else if n.isFunction then .ok n else .ok .omitted) = .ok fct ∧
      (stmt.isOmitted = false → -1 ≤ stmt.line) ∧
      (fct = .omitted ∧ ((n :: around).any (·.isStatement) && (n :: around).any (·.isFunction)) = false ∨
        fct.isFunction ∧ (n :: around).any (·.isStatement) ∧ ∃ inner outer, n :: around = inner ++ fct :: outer) := by
  have own : n.isFunction = false ∧
      (if n.isExpression then p.statement n else if n.isStatement then .ok n else .ok .omitted) =
        .ok (((n :: around).find? (·.isStatement)).getD .omitted) := by
    obtain name | steps := kind
    · cases n with
      | name =>
        refine ⟨rfl,?_⟩
        rw [find?_cons_of_neg (by simp [isStatement])]
        exact h.statement_eq path
      | _ => cases name
    · have kind : n.isExpression = false ∧ n.isStatement ∧ n.isFunction = false := by
        cases n with
        | declaration _ k => cases k <;> simp [Node.role,DeclKind.role] at steps
        | statements | forLoop => exact ⟨rfl,rfl,rfl⟩
        | _ => simp [Node.role] at steps
      refine ⟨kind.2.2,?_⟩
      rw [find?_cons_of_pos kind.2.1]
      simp [kind]
  obtain ⟨plain,own⟩ := own
  cases found : (n :: around).find? (·.isStatement) with
  | none =>
    rw [found] at own
    refine ⟨.omitted,.omitted,own,by simp [plain,isOmitted],by simp [isOmitted],.inl ⟨rfl,?_⟩⟩
    rw [any_eq_false.2 (find?_eq_none.1 found),Bool.false_and]
  | some s =>
    rw [found] at own
    have statement := find?_some found
    have mem := mem_of_find?_eq_some found
    obtain ⟨inner,outer,eq,path'⟩ := path.of_mem mem
    have solid := isOmitted_of statement rfl
    refine ⟨s,(outer.find? (·.isFunction)).getD .omitted,own,?_,fun _ => ?_,?_⟩
    · rw [solid]
      exact h.function_eq path' statement (roles s mem)
    · exact Info.le_line (isProper_iff.1 (path'.proper h.proper)).2.2
    cases found' : outer.find? (·.isFunction) with
    | none =>
      refine .inl ⟨rfl,?_⟩
      rw [Bool.and_eq_false_iff]
      refine .inr (any_eq_false.2 fun f hf function => ?_)
      have role := role_of_isFunction function
      rw [eq] at hf
      obtain hf | hf := mem_append.1 hf
      · -- A function is in no statement.
        obtain ⟨before,after,rfl⟩ := append_of_mem hf
        rw [append_assoc] at eq
        have no := (path.of_append eq).isStatement_eq_false h.proper (by rw [role]; decide) s (by simp)
        rw [no] at statement
        cases statement
      · obtain rfl | hf := mem_cons.1 hf
        · cases f <;> first | cases function; done | cases statement
        · exact find?_eq_none.1 found' f hf function
    | some =>
      obtain ⟨before,after,rfl⟩ := append_of_mem (mem_of_find?_eq_some found')
      refine .inr ⟨find?_some found',any_eq_true.2 ⟨s,mem,statement⟩,inner ++ s :: before,after,?_⟩
      rw [eq,append_assoc]
      rfl

theorem any_isContract (path : Path root around n) (eq : n :: around = inner ++ f :: outer) (role : f.role ≠ .source) :
    (f :: outer).any (·.isContract) = (n :: around).any (·.isContract) := by
  have void : inner.any (·.isContract) = false := by
    refine any_eq_false.2 fun c hc kind => ?_
    obtain ⟨before,after,rfl⟩ := append_of_mem hc
    rw [append_assoc,cons_append] at eq
    have path := path.of_append eq
    obtain ⟨m,rest,around⟩ : ∃ m rest, after ++ f :: outer = m :: rest := by
      cases after <;> exact ⟨_,_,rfl⟩
    rw [around] at path
    obtain ⟨rfl,rfl⟩ := path.eq_source h.proper (by rw [kind,Bool.true_or])
    have same : f ∈ [m] := by
      rw [← around]
      simp
    rw [mem_singleton.1 same] at role
    exact role h.source
  rw [eq,any_append,void,Bool.false_or]

theorem report_cases (seen : Sees p root around n s)
    (roles : ∀ m ∈ n :: around, m.role ∈ Role.around) (kind : n.isName ∨ n.role = .block ∨ n.role = .loop)
    (message : String) :
    if inLibraryFunction (n :: around) && Report.isShown n.line n.column p.lines then
      p.report n message = .error .violated
    else ∃ text, p.report n message = .ok text := by
  have path := seen.path
  have solid := isLeaflet_of_role (roles n mem_cons_self)
  obtain ⟨stmt,fct,hs,hf,low,frame⟩ := h.exists_frame path roles kind
  have low' : ∀ first, (if stmt.isOmitted then none else some stmt.line) = some first → -1 ≤ first := by
    intro first eq
    split at eq
    · cases eq
    next omitted =>
      cases eq
      exact low (by simpa using omitted)
  obtain ⟨rfl,alone⟩ | ⟨function,inStatement,inner,outer,eq⟩ := frame
  · obtain ⟨contract,hn,-,hr⟩ := h.contract_around path path solid
    rw [inLibraryFunction,alone,Bool.false_and,Bool.false_and,if_neg (by simp),
      report_eq hs hf (h.closest?_eq path solid _) hr h.root_eq.symm hn rfl]
    obtain ⟨text,eq⟩ : ∃ text, Report.location n.line n.column p.lines contract none _ = .ok text :=
      Report.exists_location low' fun _ function => by cases function
    exact ⟨_,by rw [eq]; rfl⟩
  · have role := role_of_isFunction function
    have mem : fct ∈ n :: around := by rw [eq]; simp
    have path' := path.of_append eq
    have solid' := isLeaflet_of_role (roles fct mem)
    have solid'' := isOmitted_of function rfl
    obtain ⟨contract,hn,known,hr⟩ := h.contract_around path' path solid
    rw [h.any_isContract path eq (by rw [role]; decide)] at known
    obtain ⟨e,i,named,-⟩ := h.exists_lists seen fct mem role
    have hm : (if fct.isOmitted then pure none else some <$> Program.nameText fct) = (.ok (some e.1) : Outcome _) := by
      rw [solid'',Program.nameText,named]
      rfl
    have hc : p.closest? (·.isContract) (if fct.isOmitted then n else fct) = (fct :: outer).find? (·.isContract) := by
      rw [solid'',← h.closest?_eq path' solid']
      rfl
    rw [report_eq hs hf hc hr h.root_eq.symm hn hm,inLibraryFunction,inStatement,
      any_eq_true.2 ⟨fct,mem,function⟩,seen.isLibrary_eq h.proper h.source]
    cases inContract : (n :: around).any (·.isContract) with
    | true =>
      obtain ⟨text,eq⟩ : ∃ text, Report.location n.line n.column p.lines contract (some e.1) _ = .ok text :=
        Report.exists_location low' fun _ _ => known.trans inContract
      rw [if_neg (by simp)]
      exact ⟨_,by rw [eq]; rfl⟩
    | false =>
      rw [inContract,Option.isSome_eq_false_iff,Option.isNone_iff_eq_none] at known
      subst known
      cases shown : Report.isShown n.line n.column p.lines with
      | true =>
        rw [if_pos (by simp),Report.location_violated shown]
        rfl
      | false =>
        obtain ⟨text,eq⟩ : ∃ text, Report.location n.line n.column p.lines none (some e.1) _ = .ok text :=
          Report.exists_location low' fun shown' => by rw [shown] at shown'; cases shown'
        rw [if_neg (by simp)]
        exact ⟨_,by rw [eq]; rfl⟩

theorem inLibraryFunction_eq {m : Node} (seen : Sees p root around n s)
    (eq : around = inner ++ m :: outer) (statement : m.isStatement) (role : m.role ≠ .source) :
    inLibraryFunction (m :: outer) = inLibraryFunction (n :: around) := by
  have path := seen.path
  obtain ⟨t,seen'⟩ := seen.of_append eq h.source role
  have split : n :: around = (n :: inner) ++ m :: outer := by rw [eq,cons_append]
  have functions : (n :: inner).any (·.isFunction) = false := by
    refine any_eq_false.2 fun f hf function => ?_
    have role := role_of_isFunction function
    obtain ⟨before,after,eq'⟩ := append_of_mem hf
    rw [eq',append_assoc,cons_append] at split
    have no := (path.of_append split).isStatement_eq_false h.proper (by rw [role]; decide) m (by simp)
    rw [no] at statement
    cases statement
  have contracts := h.any_isContract path split role
  unfold inLibraryFunction
  rw [seen'.isLibrary_eq h.proper h.source,seen.isLibrary_eq h.proper h.source,contracts]
  have statements : (m :: outer).any (·.isStatement) ∧ (n :: around).any (·.isStatement) := by
    rw [split]
    simp [statement]
  rw [statements.1,statements.2]
  conv => rhs; rw [split,any_append,functions,Bool.false_or]
  rw [split]

end Scoped

end Confidential
