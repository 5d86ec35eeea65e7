import Confidential.Proofs.LoadedSource

/-!
Lexical scoping.
-/

namespace Confidential

open List

structure Binding where
  declaration : Node
  /-- Was it declared together with others, by one statement? -/
  grouped : Bool

/-- What is visible at a place. An entry hides the later ones of its name. -/
abbrev Scope : Type :=
  List Binding

namespace Scope

def find (s : Scope) (x : String) : Option Binding :=
  s.find? (·.declaration.isCalled x)

/-- Of several declarations of a name the last one is visible. -/
def ofMembers (ds : List Node) : Scope :=
  ds.reverse.map (⟨·,false⟩)

end Scope

namespace Node

def locals : Node → Scope
  | .variableStatement _ decl _ => [⟨decl,false⟩]
  | .variablesStatement _ ds _ => (ds.filter (!·.isOmitted)).reverse.map (⟨·,true⟩)
  | _ => []

/-- The nodes in their order, each with what is visible there. -/
def inTurn (s : Scope) : List Node → List (Node × Scope)
  | [] => []
  | c :: cs => (c,s) :: inTurn (c.locals ++ s) cs

def scopes (s : Scope) (n : Node) : List (Node × Scope) :=
  if n.isBlock || n.isForLoop then inTurn s n.children
  else n.children.map (·,Scope.ofMembers n.members ++ s)

variable {c : Node}

variable {s : Scope} {cs : List Node} {n : Node}

theorem mem_inTurn {t : Scope} (h : (c,t) ∈ inTurn s cs) :
    ∃ before after, cs = before ++ c :: after ∧ t = before.reverse.flatMap locals ++ s := by
  induction cs generalizing s with
  | nil => cases h
  | cons d cs ih =>
    obtain h | h := mem_cons.1 h
    · cases h
      exact ⟨[],cs,rfl,rfl⟩
    · obtain ⟨before,after,rfl,rfl⟩ := ih h
      refine ⟨d :: before,after,rfl,?_⟩
      rw [reverse_cons,flatMap_append,flatMap_singleton,append_assoc]

theorem exists_mem_inTurn (s : Scope) (h : c ∈ cs) : ∃ t, (c,t) ∈ inTurn s cs := by
  induction cs generalizing s with
  | nil => cases h
  | cons d _ ih =>
    obtain rfl | h := mem_cons.1 h
    · exact ⟨s,mem_cons_self⟩
    · obtain ⟨t,ht⟩ := ih (d.locals ++ s) h
      exact ⟨t,mem_cons_of_mem _ ht⟩

theorem child_of_scope {e : Node × Scope} (h : e ∈ n.scopes s) :
    e.1 ∈ n.children := by
  unfold scopes at h
  split at h
  · obtain ⟨before,after,eq,-⟩ := mem_inTurn h
    rw [eq]
    simp
  · obtain ⟨c,hc,rfl⟩ := mem_map.1 h
    exact hc

theorem exists_mem_scopes (s : Scope) (h : c ∈ n.children) : ∃ t, (c,t) ∈ n.scopes s := by
  unfold scopes
  split
  · exact exists_mem_inTurn s h
  · exact ⟨_,mem_map_of_mem h⟩

def isType (n : Node) : Bool :=
  n.isTypeName || n matches .annotated ..

def isLibrary : Node → Bool
  | .library .. => true
  | _ => false

/-- The names used in a tree outside of types, each with what is visible there. -/
def uses (s : Scope) (n : Node) : List (Node × Scope) :=
  if n.isName then [(n,s)]
  else if n.isType then []
  else (n.scopes s).attach.flatMap fun ⟨e,_⟩ => uses e.2 e.1
termination_by sizeOf n
decreasing_by exact sizeOf_lt_child (child_of_scope (by assumption))

theorem uses_eq (s : Scope) (n : Node) :
    n.uses s = if n.isName then [(n,s)] else if n.isType then [] else (n.scopes s).flatMap fun e => e.1.uses e.2 := by
  have attached : (n.scopes s).attach.flatMap (fun e => uses e.1.2 e.1.1) = (n.scopes s).flatMap fun e => e.1.uses e.2 := by
    conv => rhs; rw [← attach_map_subtype_val (n.scopes s)]
    rw [flatMap_map]
  rw [uses]
  exact congrArg (fun us => if n.isName then [(n,s)] else if n.isType then [] else us) attached

end Node

namespace Program

def builtins (p : Program) : List Node :=
  p.globalNames.filterMap fun e => (p.links.parents[e.2]?).map p.node

/-- What is visible outside of contracts and libraries: what every program can use hides contracts of
the same name. -/
def outermost (p : Program) : Scope :=
  Scope.ofMembers p.builtins ++ Scope.ofMembers p.contracts

/-- The names used in the contracts and libraries of the source, each with what is visible there. -/
def uses (p : Program) : List (Node × Scope) :=
  (p.tree.children.filter fun n => n.isContract || n.isLibrary).flatMap (Node.uses p.outermost)

end Program

namespace Node

/-- The way to a node through the parts of contracts and libraries, with what is visible there. -/
inductive Sees (p : Program) (root : Node) : List Node → Node → Scope → Prop where
  | unit {c : Node} : c ∈ root.children → (c.isContract || c.isLibrary) = true → Sees p root [root] c p.outermost
  | child {around : List Node} {n c : Node} {s t : Scope} : Sees p root around n s → n.isName = false →
      n.isType = false → (c,t) ∈ n.scopes s → Sees p root (n :: around) c t

variable {around : List Node} {c n root : Node} {p : Program} {s : Scope}

variable {u : Node} {t : Scope}

theorem Sees.path (h : Sees p root around n s) : Path root around n := by
  induction h with
  | unit hc => exact .child .root hc
  | child _ _ _ mem ih => exact .child ih (child_of_scope mem)

theorem Sees.of_mem_uses (h : Sees p root around n s) (hu : (u,t) ∈ n.uses s) :
    ∃ inner, Sees p root (inner ++ around) u t := by
  induction n generalizing around s with
  | step n ih =>
    rw [uses_eq] at hu
    split at hu
    · cases mem_singleton.1 hu
      exact ⟨[],h⟩
    next name =>
      split at hu
      · cases hu
      next type =>
        obtain ⟨e,he,hu⟩ := mem_flatMap.1 hu
        have step := Sees.child h (by simpa using name) (by simpa using type) he
        obtain ⟨inner,seen⟩ := ih e.1 (part_of_child (child_of_scope he)) step hu
        refine ⟨inner ++ [n],?_⟩
        rw [append_assoc]
        exact seen

theorem Sees.mem_uses (h : Sees p p.tree around n s) (hu : (u,t) ∈ n.uses s) : (u,t) ∈ p.uses := by
  induction h with
  | unit hc kind => exact mem_flatMap.2 ⟨_,mem_filter.2 ⟨hc,kind⟩,hu⟩
  | child _ name type mem ih =>
    refine ih ?_
    rw [uses_eq,if_neg (by simpa using name),if_neg (by simpa using type)]
    exact mem_flatMap.2 ⟨_,mem,hu⟩

theorem Path.role_mem_below (path : Path root (n :: around) c) (proper : root.Proper) : c.role ∈ n.role.below := by
  cases path with
  | child outer hc => exact (isProper_iff.1 (outer.proper proper)).1 c (part_of_child hc)

theorem Path.eq_root (path : Path root around n) (proper : root.Proper)
    (source : n.role = .source) : around = [] ∧ n = root := by
  cases path with
  | root => exact ⟨rfl,rfl⟩
  | @child around m _ outer hc =>
    have below := (Path.child outer hc).role_mem_below proper
    rw [source] at below
    generalize m.role = r at below
    cases r <;> exact absurd below (by decide)

theorem isContract_or_isLibrary : (n.isContract || n.isLibrary) ↔ n.role = .contract ∨ n.role = .library := by
  cases n with
  | declaration _ kind => cases kind <;> simp [isContract,isLibrary,role,DeclKind.role]
  | statements _ kind => cases kind <;> simp [isContract,isLibrary,role,ListKind.role]
  | _ => simp [isContract,isLibrary,role]

theorem Path.eq_source (path : Path root (n :: around) c)
    (proper : root.Proper) (kind : (c.isContract || c.isLibrary)) : around = [] ∧ n = root := by
  have below := path.role_mem_below proper
  cases path with
  | child outer =>
    refine outer.eq_root proper ?_
    generalize n.role = r at below
    obtain role | role := isContract_or_isLibrary.1 kind
    all_goals
      rw [role] at below
      cases r <;> first | rfl | exact absurd below (by decide)

theorem Path.isName_eq_false (path : Path root (n :: around) c)
    (proper : root.Proper) (hr : c.role ≠ .label) : n.isName = false := by
  cases path with
  | child outer hc =>
    cases n with
    | name =>
      have places := (isProper_iff.1 (outer.proper proper)).2.1
      rw [mem_singleton.1 (part_of_child hc)] at hr
      exact absurd (of_decide_eq_true places) hr
    | _ => rfl

theorem Path.sees (path : Path root around n) (proper : root.Proper) (source : root.role = .source)
    (inside : ∃ m ∈ n :: around, (m.isContract || m.isLibrary)) (plain : ∀ m ∈ around, m.isType = false)
    (hr : n.role ≠ .label) : ∃ s, Sees p root around n s := by
  induction path with
  | root =>
    obtain ⟨m,hm,kind⟩ := inside
    rw [mem_singleton.1 hm,isContract_or_isLibrary,source] at kind
    simp at kind
  | @child around n c outer hc ih =>
    rw [forall_mem_cons] at plain
    have path := Path.child outer hc
    by_cases kind : (c.isContract || c.isLibrary)
    · obtain ⟨rfl,rfl⟩ := path.eq_source proper kind
      exact ⟨_,.unit hc kind⟩
    · have inside : ∃ m ∈ n :: around, (m.isContract || m.isLibrary) := by
        obtain ⟨m,hm,hk⟩ := inside
        obtain rfl | hm := mem_cons.1 hm
        · exact absurd hk kind
        · exact ⟨m,hm,hk⟩
      have solid : n.role ≠ .label := by
        intro label
        have below := path.role_mem_below proper
        rw [label] at below
        cases below
      obtain ⟨s,seen⟩ := ih inside plain.2 solid
      obtain ⟨t,mem⟩ := exists_mem_scopes s hc
      exact ⟨t,.child seen (path.isName_eq_false proper hr) plain.1 mem⟩

end Node

end Confidential
