import Confidential.Proofs.CallerClosure
import Confidential.Proofs.MappingAccesses

/-!
The functions of a public contract.
-/

namespace Confidential

open List Node Pass

namespace Node

def isAssign : Node → Bool
  | .assign .. => true
  | _ => false

/-- What the search for calls and assignments looks at. It leaves out what parameters and assignments consist of. -/
abbrev Searches : Node → Node → Prop :=
  Within fun n => n.isParameter || n.isAssign

end Node

namespace Program

def IsSecret (p : Program) (name : String) : Prop :=
  ∃ i type keywords j initial override,
    .stateVariable i type keywords (.identifier j name) initial override ∈ p.tree.preorder ∧ isPrivateType type = true

def CallsName (p : Program) (n : Node) (name : String) : Prop :=
  ∃ i callee args options t,
    n = .call i callee args options ∧ callee.isLocation = true ∧ p.target callee = .ok t ∧ nameText t = .ok name

def AssignsName (p : Program) (n : Node) (names : String → Prop) : Prop :=
  ∃ i toCircuit left right op side name,
    n = .assign i toCircuit left right op ∧ (side = left ∨ side = right) ∧ p.code side = .ok name ∧ names name

def RoutineWith (p : Program) (name : String) (part : Node → Prop) : Prop :=
  ∃ f ∈ p.routines, nameText f = .ok name ∧ ∃ m, f.Searches m ∧ part m

def CallsByName (p : Program) (a b : String) : Prop :=
  p.RoutineWith a (p.CallsName · b) ∧ ∃ g ∈ p.routines, nameText g = .ok b

def DealsWithSecrets (p : Program) (a : String) : Prop :=
  ∃ b, Relation.ReflTransGen p.CallsByName a b ∧ p.RoutineWith b (p.AssignsName · p.IsSecret)

end Program

namespace Marking

variable {p p' : Program} {names secret : List String} {n : Node} {so so' : Found}

variable {a x : String}

theorem mem_addName {name : String} : x ∈ addName names name ↔ x ∈ names ∨ x = name := by
  unfold addName
  split <;> grind

theorem mem_foldl_addName {xs : List String} : x ∈ xs.foldl addName names ↔ x ∈ names ∨ x ∈ xs := by
  induction xs generalizing names with
  | nil => simp
  | cons _ _ ih => rw [foldl_cons,ih,mem_addName,mem_cons,or_assoc]

theorem unchanged_relatedFunction : Keeps Eq (relatedFunction n) := by
  have unchanged (ms : List Node) : Keeps Eq (relatedFunction.go ms) := by
    induction ms with
    | nil => exact .throw
    | cons _ _ ih =>
      rw [relatedFunction.go]
      split
      · exact .pure
      · split
        · exact .pure
        · exact ih
  exact .bind .get fun _ => unchanged _

theorem runs_caller (run : Runs (caller n) p a p') : p' = p := by
  have keeps : Keeps Eq (caller n) := .bind unchanged_relatedFunction fun _ => .ofOutcome
  exact (keeps p a p' run).symm

theorem runs_caller_iff {b : String} (run : Runs (caller n) p a p) : Runs (caller n) p b p ↔ b = a := by
  constructor
  · exact fun other => (other.unique run).1
  · rintro rfl
    exact run

/-- Between `so` and `so'` the calls and assignments at the nodes with `P` have been found. -/
structure Finds (p : Program) (names secret : List String) (P : Node → Prop) (so so' : Found) : Prop where
  calls : ∀ a b, (a,b) ∈ so'.calls ↔ (a,b) ∈ so.calls ∨ ∃ m, P m ∧ p.CallsName m b ∧ b ∈ names ∧ Runs (caller m) p a p
  marked : ∀ a, a ∈ so'.marked ↔ a ∈ so.marked ∨ ∃ m, P m ∧ p.AssignsName m (· ∈ secret) ∧ Runs (caller m) p a p

namespace Finds

variable {P Q : Node → Prop} {mid : Found}

theorem nothing (calls : ∀ m, P m → ∀ b ∈ names, ¬ p.CallsName m b) (assigns : ∀ m, P m → ¬ p.AssignsName m (· ∈ secret)) :
    Finds p names secret P so so where
  calls _ b := (or_iff_left fun ⟨m,hm,h,known,_⟩ => calls m hm b known h).symm
  marked _ := (or_iff_left fun ⟨m,hm,h,_⟩ => assigns m hm h).symm

theorem trans (h : Finds p names secret P so mid) (h' : Finds p names secret Q mid so') :
    Finds p names secret (fun m => P m ∨ Q m) so so' where
  calls a b := by simp only [h'.calls,h.calls,or_and_right,exists_or,or_assoc]
  marked a := by simp only [h'.marked,h.marked,or_and_right,exists_or,or_assoc]

theorem congr (h : Finds p names secret P so so') (same : ∀ m, P m ↔ Q m) : Finds p names secret Q so so' where
  calls a b := by simp only [h.calls,same]
  marked a := by simp only [h.marked,same]

end Finds

variable {i : Info} {toCircuit : Bool} {left right : Node} {op : String}

theorem callsName_call {callee args : Node} {options : Bool} {b : String} : p.CallsName (.call i callee args options) b ↔
      callee.isLocation ∧ ∃ t, p.target callee = .ok t ∧ Program.nameText t = .ok b := by
  constructor
  · rintro ⟨_,_,_,_,t,eq,location,target,name⟩
    cases eq
    exact ⟨location,t,target,name⟩
  · rintro ⟨location,t,target,name⟩
    exact ⟨i,callee,args,options,t,rfl,location,target,name⟩

theorem assignsName_assign {P : String → Prop} : p.AssignsName (.assign i toCircuit left right op) P ↔
      (∃ l, p.code left = .ok l ∧ P l) ∨ ∃ r, p.code right = .ok r ∧ P r := by
  constructor
  · rintro ⟨_,_,_,_,_,side,name,eq,rfl | rfl,printed,h⟩ <;> cases eq
    · exact .inl ⟨name,printed,h⟩
    · exact .inr ⟨name,printed,h⟩
  · rintro (⟨name,printed,h⟩ | ⟨name,printed,h⟩)
    · exact ⟨_,_,_,_,_,left,name,rfl,.inl rfl,printed,h⟩
    · exact ⟨_,_,_,_,_,right,name,rfl,.inr rfl,printed,h⟩

theorem not_assignsName {P : String → Prop} (h : n.isAssign = false) : ¬ p.AssignsName n P := by
  rintro ⟨_,_,_,_,_,_,_,rfl,-⟩
  cases h

def noteCall (names : List String) (so : Found) (n : Node) : Pass Found := do
  match n with
  | .call _ callee _ _ =>
    if !callee.isLocation then return so
    let target ← Pass.ask fun p => p.target callee
    let name ← Pass.ofOutcome (Program.nameText target)
    if name ∈ names then return { so with calls := so.calls ++ [(← caller n,name)] }
    return so
  | _ => return so

theorem finds_noteCall (assign : n.isAssign = false) (run : Runs (noteCall names so n) p so' p') :
    p' = p ∧ Finds p names secret (· = n) so so' := by
  have void (calls : ∀ b ∈ names, ¬ p.CallsName n b) : Finds p names secret (· = n) so so :=
    .nothing (by rintro _ rfl; exact calls) (by rintro _ rfl; exact not_assignsName assign)
  unfold noteCall at run
  split at run
  next i callee args options =>
    split at run
    next elsewhere =>
      obtain ⟨rfl,rfl⟩ := runs_pure.1 run
      exact ⟨rfl,void fun b _ call => by simp [(callsName_call.1 call).1] at elsewhere⟩
    next location =>
      obtain ⟨target,found,run⟩ := runs_ask_bind.1 run
      obtain ⟨name,named,run⟩ := runs_ofOutcome_bind.1 run
      have call (b : String) : p.CallsName (.call i callee args options) b ↔ name = b := by
        simp only [callsName_call,found]
        simp_all
      split at run
      next known =>
        obtain ⟨a,q,called,rest⟩ := runs_bind.1 run
        obtain rfl := runs_caller called
        obtain ⟨rfl,rfl⟩ := runs_pure.1 rest
        refine ⟨rfl,⟨fun a' b => ?_,fun a' => ?_⟩⟩
        · simp only [exists_eq_left,call,runs_caller_iff called,mem_append,mem_singleton,Prod.mk.injEq]
          grind
        · simp [not_assignsName assign]
      next unknown =>
        obtain ⟨rfl,rfl⟩ := runs_pure.1 run
        exact ⟨rfl,void fun b known h => unknown ((call b).1 h ▸ known)⟩
  next other =>
    obtain ⟨rfl,rfl⟩ := runs_pure.1 run
    refine ⟨rfl,void ?_⟩
    rintro b - ⟨i,callee,args,options,_,eq,_⟩
    exact other i callee args options eq

theorem runs_collect_of_other (parameter : n.isParameter = false) (assign : n.isAssign = false)
    (run : Runs (collect names secret so n) p so' p') :
    ∃ mid q, Runs (n.children.foldlM (collect names secret) so) p mid q ∧ Runs (noteCall names mid n) q so' p' := by
  rw [collect.eq_def,if_neg (by simp [parameter])] at run
  split at run
  · cases assign
  · dsimp only at run
    split at run
    · exact absurd run runs_throw_bind
    · simp only [foldlM_subtype,unattach_attach] at run
      exact runs_bind.1 run

def noteAssign (so : Found) (n : Node) (isSecret : Bool) : Pass Found := do
  if isSecret then return { so with marked := addName so.marked (← caller n) }
  return so

theorem finds_noteAssign {isSecret : Bool} (assign : n.isAssign)
    (secrets : isSecret ↔ p.AssignsName n (· ∈ secret)) (run : Runs (noteAssign so n isSecret) p so' p') :
    p' = p ∧ Finds p names secret (· = n) so so' := by
  have call (b : String) : ¬ p.CallsName n b := by
    rintro ⟨_,_,_,_,_,rfl,-⟩
    cases assign
  unfold noteAssign at run
  split at run
  next isSecret =>
    obtain ⟨a,q,called,rest⟩ := runs_bind.1 run
    obtain rfl := runs_caller called
    obtain ⟨rfl,rfl⟩ := runs_pure.1 rest
    refine ⟨rfl,⟨fun a' b => ?_,fun a' => ?_⟩⟩
    · simp [call]
    · simp [mem_addName,secrets.1 isSecret,runs_caller_iff called]
  next other =>
    obtain ⟨rfl,rfl⟩ := runs_pure.1 run
    exact ⟨rfl,.nothing (by rintro _ rfl b _; exact call b) (by rintro _ rfl h; exact other (secrets.2 h))⟩

theorem finds_assign (run : Runs (collect names secret so (.assign i toCircuit left right op)) p so' p') :
    p' = p ∧ Finds p names secret (· = .assign i toCircuit left right op) so so' := by
  rw [collect.eq_1,if_neg (by simp [isParameter])] at run
  obtain ⟨l,printed,run⟩ := runs_ask_bind.1 run
  dsimp only at run
  split at run
  next mem =>
    rw [pure_bind] at run
    exact finds_noteAssign rfl (by simp [assignsName_assign,printed,mem]) run
  next other =>
    obtain ⟨r,printed',run⟩ := runs_ask_bind.1 run
    rw [pure_bind] at run
    exact finds_noteAssign rfl (by simp [assignsName_assign,printed,printed',other]) run

theorem finds_foldlM {ns : List Node} (each : ∀ n ∈ ns, ∀ p so so' p', Runs (collect names secret so n) p so' p' →
      p' = p ∧ Finds p names secret n.Searches so so') (run : Runs (ns.foldlM (collect names secret) so) p so' p') :
    p' = p ∧ Finds p names secret (fun m => ∃ n ∈ ns, n.Searches m) so so' := by
  induction ns generalizing so p with
  | nil =>
    obtain ⟨rfl,rfl⟩ := runs_pure.1 run
    exact ⟨rfl,.nothing (by simp) (by simp)⟩
  | cons n _ ih =>
    rw [foldlM_cons] at run
    obtain ⟨mid,q,first,rest⟩ := runs_bind.1 run
    obtain ⟨rfl,found⟩ := each n mem_cons_self _ _ _ _ first
    obtain ⟨rfl,more⟩ := ih (fun n hn => each n (mem_cons_of_mem _ hn)) rest
    exact ⟨rfl,(found.trans more).congr fun m => by simp⟩

theorem finds_collect (run : Runs (collect names secret so n) p so' p') :
    p' = p ∧ Finds p names secret n.Searches so so' := by
  induction n generalizing so so' p p' with
  | step n ih =>
    have alone (closed : (n.isParameter || n.isAssign)) (m : Node) : m = n ↔ n.Searches m := by
      rw [Searches,within_of_closed closed]
    cases parameter : n.isParameter with
    | true =>
      rw [collect.eq_def,if_pos parameter] at run
      obtain ⟨rfl,rfl⟩ := runs_pure.1 run
      refine ⟨rfl,.congr ?_ (alone (by simp [parameter]))⟩
      refine .nothing ?_ ?_
      · rintro _ rfl b - ⟨_,_,_,_,_,rfl,-⟩
        cases parameter
      · rintro _ rfl ⟨_,_,_,_,_,_,_,rfl,-⟩
        cases parameter
    | false =>
      cases assign : n.isAssign with
      | true =>
        cases n with
        | assign =>
          obtain ⟨rfl,found⟩ := finds_assign run
          exact ⟨rfl,found.congr (alone rfl)⟩
        | _ => cases assign
      | false =>
        obtain ⟨mid,q,below,own⟩ := runs_collect_of_other parameter assign run
        obtain ⟨rfl,found⟩ := finds_foldlM (fun c hc _ _ _ _ run => ih c (part_of_child hc) run) below
        obtain ⟨rfl,more⟩ : p' = q ∧ Finds q names secret (· = n) mid so' := finds_noteCall assign own
        refine ⟨rfl,(found.trans more).congr fun m => ?_⟩
        rw [or_comm,Searches,within_of_open (by simp [parameter,assign])]

end Marking

namespace Node

variable {n : Node}

def outerRoles : List Role :=
  [.routine,.contract,.library,.interface,.source]

def isOuter (n : Node) : Bool :=
  n.role ∈ outerRoles

theorem isOuter_of_isContract (h : n.isContract) : n.isOuter := by
  cases n <;> first | rfl | cases h

theorem isOuter_of_isFunction (h : n.isFunction) : n.isOuter := by
  cases n <;> first | rfl | cases h

theorem isOuter_of_part {f c : Node} (proper : f.Proper) (function : f.isFunction) (hc : c ∈ f.parts) :
    ∀ m ∈ c.subtrees, m.isOuter = false := by
  have down (r s : Role) (hr : r ∈ s.below) (hs : s ∉ outerRoles) : r ∉ outerRoles := by
    revert r
    revert hs
    cases s <;> decide
  have inner : c.role ∉ outerRoles := by
    have role := role_of_isFunction function
    have admitted := (isProper_iff.1 (proper_iff.1 proper).1).1 c hc
    rw [role] at admitted
    generalize c.role = r at admitted
    revert r
    decide
  intro m hm
  simpa [isOuter] using ((proper_iff.1 proper).2 c hc).role_of_mem down inner m hm

theorem Within.around {closed : Node → Bool} {root m : Node} {around : List Node} (path : Path root around n)
    (h : Within closed n m) :
    ∃ ms around', Path root around' m ∧ m :: around' = ms ++ n :: around ∧
      ∀ x ∈ ms, ∃ c ∈ n.parts, x ∈ c.subtrees := by
  induction h generalizing around with
  | self => exact ⟨[],around,path,rfl,by simp⟩
  | @child n c m _ hc inner ih =>
    have part : c ∈ n.parts := part_of_child hc
    obtain ⟨ms,around',path',eq,inside⟩ := ih (path.child hc)
    refine ⟨ms ++ [c],around',path',by simp [eq],fun x hx => ⟨c,part,?_⟩⟩
    obtain hx | hx := mem_append.1 hx
    · exact Node.mem_subtrees.2 (.inr (inside x hx))
    · exact Node.mem_subtrees.2 (.inl (mem_singleton.1 hx))

end Node

variable {p : Program} {f : Node}

theorem runs_relatedFunction {first : Nat} {root m : Node} {around : List Node} {closed : Node → Bool}
    (holds : Holds p first root) (proper : f.Proper) (path : Path root around f) (function : f.isFunction)
    (inside : Within closed f m) (solid : m.isLeaflet = false) : Runs (relatedFunction m) p f p := by
  obtain ⟨ms,around',path',eq,parts⟩ := inside.around path
  have inner : ∀ x ∈ ms, x.isOuter = false := fun x hx => by
    obtain ⟨c,hc,hx⟩ := parts x hx
    exact isOuter_of_part proper function hc x hx
  refine runs_bind.2 ⟨p,p,runs_get.2 ⟨rfl,rfl⟩,?_⟩
  rw [holds.ancestors_eq path' solid,eq]
  clear eq parts
  induction ms with
  | nil =>
    have other : f.isContract = false := by
      cases f <;> first | rfl | cases function
    simp [relatedFunction.go,other,function]
  | cons x _ ih =>
    rw [forall_mem_cons] at inner
    have contract : x.isContract = false := by
      by_contra h
      simp [isOuter_of_isContract (by simpa using h)] at inner
    have routine : x.isFunction = false := by
      by_contra h
      simp [isOuter_of_isFunction (by simpa using h)] at inner
    rw [cons_append,relatedFunction.go,contract,routine]
    exact ih inner.2

structure Program.IsLinked (p : Program) : Prop where
  holds : Holds p Globals.base.next p.tree
  proper : p.tree.Proper
  source : p.tree.isSource = true
  path : ∀ f ∈ p.routines, ∃ around, Path p.tree around f

theorem LinkedSource.isLinked {s : Program} (h : LinkedSource s Globals.base.next s.tree) (only : EffectsOnly s p) :
    p.IsLinked := by
  have tree : p.tree = s.tree := by
    rw [only]
    rfl
  refine ⟨?_,tree ▸ h.proper,tree ▸ isSource_iff.2 h.source,fun f hf => ?_⟩
  · rw [tree,only]
    exact { h.holds with }
  · rw [tree]
    exact h.path_of_routine (only.routines ▸ hf)

theorem Program.isFunction_of_routine (hf : f ∈ p.routines) : f.isFunction := by
  obtain ⟨c,-,hf⟩ := mem_flatMap.1 hf
  exact isFunction_of_mem hf

namespace Program.IsLinked

variable {p : Program} (h : p.IsLinked)

variable {a : String}
include h

theorem runs_caller_iff {f m : Node} (hf : f ∈ p.routines) (inside : f.Searches m)
    (solid : m.isLeaflet = false) : Runs (Marking.caller m) p a p ↔ nameText f = .ok a := by
  obtain ⟨around,path⟩ := h.path f hf
  have related := runs_relatedFunction h.holds (h.proper.inside path.mem_subtrees) path (isFunction_of_routine hf)
    inside solid
  constructor
  · intro run
    obtain ⟨g,q,other,run⟩ := runs_bind.1 run
    obtain ⟨rfl,rfl⟩ := Runs.unique related other
    exact (runs_ofOutcome.1 run).1
  · exact fun name => runs_bind.2 ⟨f,p,related,runs_ofOutcome.2 ⟨name,rfl⟩⟩

theorem routineWith_iff {part : Node → Prop} (solid : ∀ m, part m → m.isLeaflet = false) :
    (∃ m, (∃ f ∈ p.routines, f.Searches m) ∧ part m ∧ Runs (Marking.caller m) p a p) ↔ p.RoutineWith a part := by
  constructor
  · rintro ⟨m,⟨f,hf,inside⟩,hm,run⟩
    exact ⟨f,hf,(h.runs_caller_iff hf inside (solid m hm)).1 run,m,inside,hm⟩
  · rintro ⟨f,hf,name,m,inside,hm⟩
    exact ⟨m,⟨f,hf,inside⟩,hm,(h.runs_caller_iff hf inside (solid m hm)).2 name⟩

end Program.IsLinked

namespace Marking

variable {p p' : Program}

variable {x : String}

theorem mem_secretStates : x ∈ secretStates p ↔ p.IsSecret x := by
  unfold secretStates Program.IsSecret
  rw [mem_filterMap]
  constructor
  · rintro ⟨n,hn,eq⟩
    split at eq
    next i type keywords j name initial override =>
      split at eq
      next secret =>
        cases eq
        exact ⟨i,type,keywords,j,initial,override,hn,secret⟩
      next => cases eq
    next => cases eq
  · rintro ⟨i,type,keywords,j,initial,override,hn,secret⟩
    exact ⟨_,hn,if_pos secret⟩

def routineNames (p : Program) : List String :=
  (p.routines.filterMap fun f => (Program.nameText f).toOption).foldl addName []

theorem mem_routineNames : x ∈ routineNames p ↔ ∃ g ∈ p.routines, Program.nameText g = .ok x := by
  have named (g : Node) : (Program.nameText g).toOption = some x ↔ Program.nameText g = .ok x := by
    cases Program.nameText g <;> simp [Except.toOption]
  simp [routineNames,mem_foldl_addName,named]

theorem mem_of_runs_related (h : p.IsLinked) {marked : List String} (run : Runs related p marked p') :
    p' = p ∧ ∀ a, a ∈ marked ↔ p.DealsWithSecrets a := by
  replace run := runs_get_bind.1 run
  obtain ⟨found,q,walked,run⟩ := runs_bind.1 run
  obtain ⟨rfl,rfl⟩ := runs_pure.1 run
  obtain ⟨rfl,finds⟩ := finds_foldlM (fun _ _ _ _ _ _ run => finds_collect run) walked
  have assigns (a : String) : a ∈ found.marked ↔ q.RoutineWith a (q.AssignsName · q.IsSecret) := by
    have solid m : q.AssignsName m q.IsSecret → m.isLeaflet = false := by
      rintro ⟨_,_,_,_,_,_,_,rfl,-⟩
      rfl
    simp only [finds.marked,mem_secretStates,not_mem_nil,false_or,h.routineWith_iff solid]
  have calls (a b : String) : CallsIn (routineNames q) found.calls a b ↔ q.CallsByName a b := by
    have solid m : q.CallsName m b ∧ b ∈ routineNames q → m.isLeaflet = false := by
      rintro ⟨⟨_,_,_,_,_,rfl,-⟩,-⟩
      rfl
    have walked : (a,b) ∈ found.calls ↔ q.RoutineWith a fun m => q.CallsName m b ∧ b ∈ routineNames q := by
      rw [finds.calls,← h.routineWith_iff solid]
      simp [and_assoc,routineNames]
    rw [CallsIn,walked]
    constructor
    · rintro ⟨-,f,hf,name,m,inside,call,known⟩
      exact ⟨⟨f,hf,name,m,inside,call⟩,mem_routineNames.1 known⟩
    · rintro ⟨⟨f,hf,name,m,inside,call⟩,known⟩
      exact ⟨mem_routineNames.2 ⟨f,hf,name⟩,f,hf,name,m,inside,call,mem_routineNames.2 known⟩
  have known : found.marked ⊆ routineNames q := fun a ha => by
    obtain ⟨f,hf,name,-⟩ := (assigns a).1 ha
    exact mem_routineNames.2 ⟨f,hf,name⟩
  have same : CallsIn (routineNames q) found.calls = q.CallsByName := funext₂ fun a b => propext (calls a b)
  refine ⟨rfl,fun a => ?_⟩
  rw [← routineNames,mem_close_iff known,same,Program.DealsWithSecrets]
  simp only [assigns,and_comm]

end Marking

namespace Compilation

variable {p p' : Program} {policy : PrivacyPolicy} {privateCode policyText : String} {related : List String}

variable {us vs : List Node} {f : Node}

/-- The parts of a contract and of its public form. -/
structure KeepsPublic (p : Program) (units units' : List Node) : Prop where
  constructors : units'.filter (isFunctionOf .constructor) = units.filter (isFunctionOf .constructor)
  functions : (units'.filter (isFunctionOf .function)).Sublist (units.filter (isFunctionOf .function))
  kept : ∀ f ∈ units, f.isFunctionOf .function = true →
    (f ∈ units' ↔ ∀ name, Program.nameText f = .ok name → ¬ p.DealsWithSecrets name)

inductive PublicForm (p : Program) : Node → Node → Prop where
  | contract {i : Info} {name : Node} {units units' before after after' : List Node} : KeepsPublic p units units' →
      PublicForm p (.contract i name units before after) (.contract i name units' before after')
  | other {u : Node} : u.isContract = false → PublicForm p u u

theorem isStateVariable_declaration {n n' : Node} (state : n.isStateVariable)
    (run : Runs (Ciphertext.declaration n) p n' p') : n'.isStateVariable := by
  cases n with
  | stateVariable i t keywords name value override =>
    have rest {value : Node} {q : Program} (run : Runs (do
        return .stateVariable i (← Ciphertext.declaration t) (keywords.filter (· != "public") ++ ["public"])
          (← Ciphertext.declaration name) value override) q n' p') : n'.isStateVariable := by
      obtain ⟨t,_,-,run⟩ := runs_bind.1 run
      obtain ⟨name,_,-,run⟩ := runs_bind.1 run
      obtain ⟨rfl,-⟩ := runs_pure.1 run
      rfl
    rw [Ciphertext.declaration] at run
    split at run
    · rw [pure_bind] at run
      exact rest run
    · obtain ⟨initial,_,-,run⟩ := runs_bind.1 run
      obtain ⟨value,_,-,run⟩ := runs_bind.1 run
      exact rest run
  | _ => cases state

/-- Parts of contracts before functions are left out: only the declarations of states differ. -/
def Declared : List Node → List Node → Prop :=
  List.Forall₂ fun u v => v = u ∨ u.isStateVariable = true ∧ v.isStateVariable = true

theorem Declared.filter_isFunctionOf {kind : FunctionKind} (h : Declared us vs) :
    vs.filter (isFunctionOf kind) = us.filter (isFunctionOf kind) := by
  have void {n : Node} (state : n.isStateVariable) : n.isFunctionOf kind = false := by
    cases n <;> first | rfl | cases state
  induction h with
  | nil => rfl
  | cons first _ ih =>
    obtain rfl | ⟨state,state'⟩ := first
    · rw [filter_cons,filter_cons,ih]
    · rw [filter_cons_of_neg (by simp [void state']),filter_cons_of_neg (by simp [void state]),ih]

theorem isDropped_of_constructor (h : f.isFunctionOf .constructor) : isDropped true related f = false := by
  cases f with
  | function _ _ _ _ _ _ kind =>
    cases kind <;> first | rfl | cases h
  | _ => cases h

theorem isDropped_iff (function : f.isFunctionOf .function) :
    isDropped true related f ↔ ∃ name, Program.nameText f = .ok name ∧ name ∈ related := by
  simp only [isDropped,function,Bool.true_and,Bool.not_true,Bool.false_or]
  cases Program.nameText f <;> simp

theorem Declared.keepsPublic (h : Declared us vs) (marked : ∀ a, a ∈ related ↔ p.DealsWithSecrets a) :
    KeepsPublic p us (vs.filter fun u => !isDropped true related u) where
  constructors := by
    rw [filter_comm,h.filter_isFunctionOf,filter_eq_self]
    intro f hf
    simp [isDropped_of_constructor (mem_filter.1 hf).2]
  functions := by
    rw [filter_comm,h.filter_isFunctionOf]
    exact filter_sublist
  kept f hf function := by
    have inside : f ∈ vs := by
      have mem : f ∈ us.filter (isFunctionOf .function) := mem_filter.2 ⟨hf,function⟩
      exact mem_of_mem_filter (h.filter_isFunctionOf ▸ mem)
    rw [mem_filter,and_iff_right inside,Bool.not_eq_true',← Bool.not_eq_true,isDropped_iff function]
    simp only [marked,not_exists,not_and]

theorem publicForm_of_runs {u u' : Node} {q : Program} (marked : ∀ a, a ∈ related ↔ q.DealsWithSecrets a)
    (run : Runs (publicContract true related policy privateCode policyText u) p u' p') : PublicForm q u u' := by
  unfold publicContract at run
  split at run
  next i name units before after =>
    obtain ⟨r,_,got,run⟩ := runs_bind.1 run
    obtain ⟨rfl,rfl⟩ := runs_get.1 got
    obtain ⟨declared,-,run⟩ := runs_ofOutcome_bind.1 run
    obtain ⟨units',r',each,run⟩ := runs_bind.1 run
    obtain ⟨accessors,-,run⟩ := runs_ofOutcome_bind.1 run
    obtain ⟨rfl,rfl⟩ := runs_pure.1 run
    have declared : Declared units units' := by
      refine forall₂_of_runs_mapM (fun u _ r v r' run => ?_) each
      split at run
      next state => exact .inr ⟨state,isStateVariable_declaration state run⟩
      next =>
        obtain ⟨rfl,-⟩ := runs_pure.1 run
        exact .inl rfl
    exact .contract (declared.keepsPublic marked)
  next other =>
    obtain ⟨rfl,rfl⟩ := runs_pure.1 run
    refine .other ?_
    cases u with
    | contract i name units before after => exact absurd rfl (other i name units before after)
    | _ => rfl

end Compilation

/-- With the marks of a processed source, a function is dropped if and only if it deals with secrets, and the public
source keeps all others in their order. -/
theorem public_functions_kept_iff {text : String} {compiler : Option Solc.Answer} {settings : Settings}
    {policy : PrivacyPolicy} {p q : Program} {related : List String}
    (processed : Runs (Pipeline.process text compiler) { Globals.base with settings } policy p)
    (marking : Runs Marking.related p related q) :
    (∀ f : Node, f.isFunctionOf .function = true →
      (Compilation.isDropped true related f = true ↔ ∃ name, Program.nameText f = .ok name ∧ p.DealsWithSecrets name)) ∧
    ∀ policy' privateCode policyText source p',
      Runs (Compilation.publicSource true policy' privateCode policyText) p source p' →
      ∃ i units units' head head' single, p.tree = .source i units head single ∧ source = .source i units' head' single ∧
        List.Forall₂ (Compilation.PublicForm p) units units' := by
  obtain ⟨s,r,drawn,printed⟩ := Pipeline.drawn_of_runs processed
  have before : EffectsOnly s r := drawn.traced.analysed.only
  have only : EffectsOnly s p := IsTrans.trans _ _ _ before printed.effectsOnly
  have linked : p.IsLinked := drawn.linked.isLinked only
  obtain ⟨rfl,marked⟩ := Marking.mem_of_runs_related linked marking
  refine ⟨fun f function => ?_,fun policy' privateCode policyText source p' run => ?_⟩
  · simp only [Compilation.isDropped_iff function,marked]
  · obtain ⟨related',t,again,rest⟩ := runs_bind.1 run
    obtain ⟨rfl,rfl⟩ := Runs.unique again marking
    have run := runs_get_bind.1 rest
    split at run
    next i units head single tree =>
      obtain ⟨units',_,each,run⟩ := runs_bind.1 run
      obtain ⟨rfl,rfl⟩ := runs_pure.1 run
      refine ⟨i,units,units',head,_,single,tree,rfl,?_⟩
      exact forall₂_of_runs_mapM (fun _ _ _ _ _ run => Compilation.publicForm_of_runs marked run) each
    next other =>
      have source := linked.source
      cases eq : t.tree with
      | source i units head single => exact absurd eq (other i units head single)
      | _ => simp [eq,isSource] at source

/-- A contract with a private state that two functions assign, one of them by a call, and a third one reads. -/
def vaultContract : String :=
  "contract C\x7buint@tee x;function put()public\x7bx=1;\x7dfunction refill()public\x7bput();\x7dfunction peek()public\x7bx;\x7d\x7d"

theorem vaultContract_keeps_peek : ∃ policy p q related,
    Runs (Pipeline.process vaultContract none) { Globals.base with settings := {} } policy p ∧
    Runs Marking.related p related q ∧
    (∃ f ∈ p.routines, Program.nameText f = .ok "peek" ∧ Compilation.isDropped true related f = false) ∧
    ¬ p.DealsWithSecrets "peek" ∧ p.DealsWithSecrets "refill" := by
  have chars : vaultContract = String.ofList _ := rfl
  have evaluated : (Pipeline.process vaultContract none).succeeds { Globals.base with settings := {} } (fun _ p =>
      Marking.related.succeeds p fun related _ =>
      (p.routines.any fun f => f.isFunctionOf .function && (Program.nameText f == .ok "peek") &&
        !Compilation.isDropped true related f) &&
      p.routines.any fun f => f.isFunctionOf .function && (Program.nameText f == .ok "refill") &&
        Compilation.isDropped true related f) = true := by
    rw [Pipeline.process,load_eq chars]
    decide +kernel
  obtain ⟨policy,p,processed,evaluated⟩ := of_succeeds evaluated
  obtain ⟨related,q,marking,evaluated⟩ := of_succeeds evaluated
  simp only [Bool.and_eq_true,any_eq_true,Bool.not_eq_true',beq_iff_eq] at evaluated
  obtain ⟨⟨f,hf,⟨function,named⟩,kept⟩,g,-,⟨function',named'⟩,dropped⟩ := evaluated
  obtain ⟨dropped_iff,-⟩ := public_functions_kept_iff processed marking
  refine ⟨policy,p,q,related,processed,marking,⟨f,hf,named,kept⟩,fun deals => ?_,?_⟩
  · have := (dropped_iff f function).2 ⟨"peek",named,deals⟩
    simp [kept] at this
  · obtain ⟨name,same,deals⟩ := (dropped_iff g function').1 dropped
    rw [named'] at same
    cases same
    exact deals

end Confidential
