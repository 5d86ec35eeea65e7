import Confidential.Proofs.Scope

/-!
What is visible at a place, level by level from the inside out, and how the tables of names tell it.
-/

namespace Confidential

open List Node Pass

namespace Scope

def single (s : Scope) : List Node :=
  (s.filter (!·.grouped)).map (·.declaration)

theorem single_append (s t : Scope) : single (s ++ t) = s.single ++ t.single := by
  unfold single
  rw [filter_append,map_append]

theorem single_ofMembers (ds : List Node) : (ofMembers ds).single = ds.reverse := by
  unfold single ofMembers
  rw [filter_map,map_map]
  simp [Function.comp_def]

theorem single_locals (n : Node) : n.locals.single = n.local?.toList := by
  unfold single
  cases n with
  | variablesStatement =>
    change List.map _ (List.filter _ (List.map _ _)) = []
    rw [filter_map]
    simp [Function.comp_def]
  | _ => rfl

theorem single_flatMap_locals (ns : List Node) :
    single (ns.reverse.flatMap locals) = (ns.filterMap local?).reverse := by
  induction ns with
  | nil => rfl
  | cons n _ ih =>
    rw [reverse_cons,flatMap_append,flatMap_singleton,single_append,ih,single_locals,filterMap_cons]
    cases n.local? with
    | none => exact append_nil _
    | some => rw [reverse_cons,Option.toList_some]

end Scope

def Node.visibleTo (p : Program) (n child : Node) : List Node :=
  if n.isBlock || n.isForLoop then ((n.children.takeWhile (·.id ≠ child.id)).filterMap local?).reverse
  else if n.isSource then p.builtins.reverse ++ p.contracts.reverse
  else n.members.reverse

/-- The first level at which `x` is visible decides. -/
def Program.resolve (p : Program) (x : String) : Node → List Node → Option Node
  | _, [] => none
  | child, n :: around => ((n.visibleTo p child).find? (·.isCalled x)).or (p.resolve x n around)

namespace Node

variable {after before inner outer : List Node} {a c n root : Node}

variable {m : Node} {around : List Node}

theorem numbers_sublist (h : m ∈ n.subtrees) : m.numbers.Sublist n.numbers := by
  induction n with
  | step n ih =>
    obtain rfl | ⟨c,hc,hm⟩ := mem_subtrees.1 h
    · exact .refl _
    · rw [numbers_eq n]
      refine (ih c hc hm).trans (.trans ?_ (sublist_append_right _ _))
      exact sublist_flatten_of_mem (mem_map_of_mem hc)

theorem nodup_parts (path : Path root around n) (nodup : root.numbers.Nodup) :
    (n.parts.flatMap numbers).Nodup := by
  have own : n.numbers.Nodup := (numbers_sublist path.mem_subtrees).nodup nodup
  rw [numbers_eq,nodup_append] at own
  exact own.2.1

theorem nodup_children (path : Path root around n) (nodup : root.numbers.Nodup) : (n.children.flatMap numbers).Nodup :=
  (flatMap_sublist n.children_sublist fun _ _ => .refl _).nodup (nodup_parts path nodup)

theorem id_ne_of_before (nodup : ((before ++ a :: after).flatMap numbers).Nodup)
    (pos : 0 < a.id) : ∀ b ∈ before, b.id ≠ a.id := by
  intro b hb same
  have self {m : Node} (pos : 0 < m.id) : m.id ∈ m.numbers :=
    number_mem self_mem (isLeaflet_of_id pos)
  rw [flatMap_append,flatMap_cons,nodup_append] at nodup
  refine nodup.2.2 b.id (mem_flatMap.2 ⟨b,hb,self (same ▸ pos)⟩) a.id ?_ same
  exact mem_append_left _ (self pos)

theorem takeWhile_before (nodup : ((before ++ a :: after).flatMap numbers).Nodup)
    (pos : 0 < a.id) : (before ++ a :: after).takeWhile (·.id ≠ a.id) = before := by
  have other := id_ne_of_before nodup pos
  rw [takeWhile_append_of_pos (by simpa using other),takeWhile_cons_of_neg (by simp),append_nil]

theorem findIdx?_before (nodup : ((before ++ a :: after).flatMap numbers).Nodup) (pos : 0 < a.id) :
    (before ++ a :: after).findIdx? (fun m => m.id = a.id && !m.isLeaflet) = some before.length := by
  have other := id_ne_of_before nodup pos
  rw [findIdx?_append,findIdx?_eq_none_iff.2 (by simpa using fun b hb same => absurd same (other b hb))]
  rw [findIdx?_cons,isLeaflet_of_id pos]
  simp

theorem Path.suffix (path : Path root (inner ++ m :: outer) c) : Path root outer m := by
  induction inner generalizing c with
  | nil =>
    cases path with
    | child path => exact path
  | cons _ _ ih =>
    cases path with
    | child path => exact ih path

theorem Path.last_mem_children (path : Path root (inner ++ n :: outer) c) : inner.getLastD c ∈ n.children := by
  induction inner generalizing c with
  | nil =>
    cases path with
    | child _ hc => exact hc
  | cons _ _ ih =>
    cases path with
    | child path =>
      rw [getLastD_cons]
      exact ih path

theorem Path.last (path : Path root (inner ++ n :: outer) c) : Path root (n :: outer) (inner.getLastD c) :=
  .child path.suffix path.last_mem_children

end Node

variable {p : Program}

theorem Holds.nodup_path {first : Nat} {root c : Node} {around : List Node}
    (h : Holds p first root) (path : Path root around c) (solid : c.isLeaflet = false) :
    ((c :: around).map (·.id)).Nodup := by
  induction path with
  | root => exact nodup_singleton _
  | @child around n c outer hc ih =>
    rw [map_cons,nodup_cons]
    refine ⟨fun mem => ?_,ih (isLeaflet_of_child hc)⟩
    obtain ⟨m,hm,same⟩ := mem_map.1 mem
    obtain ⟨inner,outer',eq⟩ := append_of_mem hm
    have path := Path.child outer hc
    have pos : 0 < c.id := h.pos.trans_le (h.range c path.mem_subtrees solid).1
    rw [eq] at path
    -- The same node would stand at two depths.
    have around := (h.path_unique path path.suffix solid same (isLeaflet_of_id (same ▸ pos))).2
    have length := congrArg List.length around
    simp at length
    omega

namespace Scoped

variable {p : Program} {first : Nat} {root : Node} (h : Scoped p first root)

variable {around : List Node} {c : Node}
include h

theorem pos_of_path {n : Node} (path : Path root around n) (hc : c ∈ n.children) : 0 < n.id := by
  have range := h.holds.range n path.mem_subtrees (isLeaflet_of_child hc)
  exact h.holds.pos.trans_le range.1

theorem single_eq {s : Scope} (seen : Sees p root around c s) (pos : 0 < c.id)
    (x : String) : s.single.find? (·.isCalled x) = p.resolve x c around := by
  induction seen with
  | @unit c hc kind =>
    have source := h.source
    have level : root.visibleTo p c = p.builtins.reverse ++ p.contracts.reverse := by
      obtain ⟨i,as,bs,single,rfl⟩ := exists_of_isSource (isSource_iff.2 source)
      rfl
    rw [Program.resolve,level,Program.resolve,Option.or_none,Program.outermost,Scope.single_append,
      Scope.single_ofMembers,Scope.single_ofMembers]
  | @child around n c s t outer name type mem ih =>
    have path := outer.path
    have child := child_of_scope mem
    rw [Program.resolve,← ih (h.pos_of_path path child)]
    unfold scopes at mem
    unfold visibleTo
    split at mem
    next opens =>
      obtain ⟨before,after,eq,rfl⟩ := mem_inTurn mem
      have apart := nodup_children path h.holds.nodup
      rw [eq] at apart
      rw [if_pos opens,eq,takeWhile_before apart pos,Scope.single_append,Scope.single_flatMap_locals,find?_append]
    next closed =>
      obtain ⟨c,-,eq⟩ := mem_map.1 mem
      cases eq
      have inner : ¬ n.isSource := by
        intro source
        obtain ⟨rfl,-⟩ := path.eq_root h.proper (isSource_iff.1 source)
        cases outer
      rw [if_neg closed,if_neg inner,Scope.single_append,Scope.single_ofMembers,find?_append]

end Scoped

namespace Node

variable {a n : Node}

variable {i : Info} {c m root s : Node} {around inner outer : List Node}

theorem steps_perm (kind : (n.isForLoop || n.isBlock)) : n.steps.Perm n.parts := by
  cases n with
  | forLoop =>
    exact .cons _ (.cons _ (.swap ..))
  | statements => exact .refl _
  | _ => cases kind

/-- The numbers of the steps of `n` that two nodes are, where the second precedes the first in the list of
children if it has the smaller number. -/
def Ordered (n a s : Node) : Prop :=
  ∃ i j, n.steps.findIdx? (fun m => m.id = a.id && !m.isLeaflet) = some i ∧
    n.steps.findIdx? (fun m => m.id = s.id && !m.isLeaflet) = some j ∧
    (s ∈ n.children.takeWhile (·.id ≠ a.id) ↔ ¬ i ≤ j)

theorem ordered_statements {kind : ListKind} {body : List Node}
    (nodup : (body.flatMap numbers).Nodup) (ha : a ∈ body) (pos : 0 < a.id) (hs : s ∈ body) (pos' : 0 < s.id)
    (apart : a.id ≠ s.id) : Ordered (.statements i kind body) a s := by
  obtain ⟨before,after,rfl⟩ := append_of_mem ha
  have children : (statements i kind (before ++ a :: after)).children.takeWhile (·.id ≠ a.id) =
      before.filter (!·.isOmitted) := by
    have keep : children (.statements i kind (before ++ a :: after)) =
        before.filter (!·.isOmitted) ++ a :: after.filter (!·.isOmitted) := by
      change List.filter _ (before ++ a :: after) = _
      rw [filter_append,filter_cons_of_pos (by simp [isOmitted_of_id pos])]
    have apart := (flatMap_sublist (children_sublist _) fun _ _ => .refl _).nodup
      (show (parts (.statements i kind (before ++ a :: after))).flatMap numbers |>.Nodup from nodup)
    rw [keep] at apart ⊢
    exact takeWhile_before apart pos
  refine ⟨before.length,?_⟩
  rw [children]
  obtain hs | hs := mem_append.1 hs
  · obtain ⟨first,rest,rfl⟩ := append_of_mem hs
    refine ⟨first.length,findIdx?_before nodup pos,?_,?_⟩
    · have nodup' := nodup
      rw [append_assoc] at nodup'
      change ((first ++ s :: rest) ++ a :: after).findIdx? _ = _
      rw [append_assoc]
      exact findIdx?_before nodup' pos'
    · refine iff_of_true (mem_filter.2 ⟨hs,by simp [isOmitted_of_id pos']⟩) ?_
      simp
  · obtain rfl | hs := mem_cons.1 hs
    · exact absurd rfl apart
    obtain ⟨middle,rest,rfl⟩ := append_of_mem hs
    have split : before ++ a :: (middle ++ s :: rest) = (before ++ a :: middle) ++ s :: rest := by simp
    have nodup' := nodup
    rw [split] at nodup'
    refine ⟨(before ++ a :: middle).length,findIdx?_before nodup pos,?_,iff_of_false ?_ (by simp)⟩
    · change (before ++ a :: (middle ++ s :: rest)).findIdx? _ = _
      rw [split]
      exact findIdx?_before nodup' pos'
    · intro early
      exact id_ne_of_before nodup' pos' s (mem_append_left _ (mem_filter.1 early).1) rfl

theorem ordered_forLoop {start condition update body : Node}
    (nodup : ([start,condition,body,update].flatMap numbers).Nodup) (ha : a ∈ [condition,body,update])
    (pos : 0 < a.id) (pos' : 0 < start.id) (apart : a.id ≠ start.id) :
    Ordered (.forLoop i start condition update body) a start := by
  obtain ⟨before,after,eq⟩ := append_of_mem ha
  have steps : start :: [condition,body,update] = (start :: before) ++ a :: after := by
    rw [eq,cons_append]
  refine ⟨before.length + 1,0,?_,@findIdx?_before [condition,body,update] [] start nodup pos',iff_of_true ?_ (by omega)⟩
  · rw [steps] at nodup
    change (start :: [condition,body,update]).findIdx? _ = _
    rw [steps]
    exact findIdx?_before nodup pos
  · change start ∈ (List.filter _ (start :: [condition,update,body])).takeWhile _
    rw [filter_cons_of_pos (by simp [isOmitted_of_id pos']),
      takeWhile_cons_of_pos (by simpa using Ne.symm apart)]
    exact mem_cons_self

theorem ordered_of_local {d : Node} (kind : (n.isForLoop || n.isBlock)) (proper : n.isProper)
    (nodup : (n.parts.flatMap numbers).Nodup) (ha : a ∈ n.children) (pos : 0 < a.id) (hs : s ∈ n.children)
    (pos' : 0 < s.id) (hd : s.local? = some d) (apart : a.id ≠ s.id) : Ordered n a s := by
  have steps := steps_perm kind
  have memSteps {m : Node} (hm : m ∈ n.children) : m ∈ n.steps := steps.mem_iff.2 (part_of_child hm)
  cases n with
  | forLoop _ start condition update body =>
    have places := (isProper_iff.1 proper).2.1
    simp only [keepsPlaces,Bool.and_eq_true,decide_eq_true_eq] at places
    have role : s.role = .variableStatement := by
      cases s <;> first | rfl | cases hd
    have only : s = start := by
      obtain h | h | h | h : s = start ∨ s = condition ∨ s = body ∨ s = update := by
        simpa [Node.steps] using memSteps hs
      · exact h
      all_goals
        subst h
        simp [role] at places
    subst only
    have nodup' := (steps.flatMap_right numbers).nodup_iff.2 nodup
    obtain rfl | later := mem_cons.1 (memSteps ha)
    · exact absurd rfl apart
    · exact ordered_forLoop nodup' later pos pos' apart
  | statements =>
    exact ordered_statements nodup (memSteps ha) pos (memSteps hs) pos' apart
  | _ => cases kind

theorem Path.of_append (path : Path root around c) (eq : c :: around = inner ++ m :: outer) : Path root outer m := by
  cases inner with
  | nil =>
    cases eq
    exact path
  | cons =>
    cases eq
    exact path.suffix

theorem Path.of_mem (path : Path root around c) (hm : m ∈ c :: around) :
    ∃ inner outer, c :: around = inner ++ m :: outer ∧ Path root outer m := by
  obtain ⟨inner,outer,eq⟩ := append_of_mem hm
  exact ⟨inner,outer,eq,path.of_append eq⟩

theorem takeWhile_path (nodup : ((inner ++ n :: outer).map (·.id)).Nodup) :
    (inner ++ n :: outer).takeWhile (·.id ≠ n.id) = inner := by
  rw [map_append,nodup_append] at nodup
  have other : ∀ b ∈ inner, b.id ≠ n.id := fun b hb =>
    nodup.2.2 b.id (mem_map_of_mem hb) n.id (by simp)
  rw [takeWhile_append_of_pos (by simpa using other),takeWhile_cons_of_neg (by simp),append_nil]

end Node

namespace Holds

variable {p : Program} {first : Nat} {root : Node} (h : Holds p first root)
include h

variable {inner outer : List Node} {c n : Node}

theorem isInside_iff {s : Node} (path : Path root (inner ++ n :: outer) c)
    (solid : c.isLeaflet = false) (hs : s ∈ n.children) (pos : 0 < s.id) :
    p.isInside s c ↔ (inner.getLastD c).id = s.id := by
  have step : Path root (n :: outer) s := .child path.suffix hs
  have any : p.isInside s c = (c :: (inner ++ n :: outer)).any (·.id = s.id) := by
    rw [Program.isInside,h.ancestors_eq path solid,any_cons]
  rw [any,any_eq_true]
  constructor
  · intro ⟨m,hm,same⟩
    rw [decide_eq_true_eq] at same
    obtain ⟨before,after,eq,path'⟩ := path.of_mem hm
    obtain ⟨-,rfl⟩ := h.path_unique step path' (isLeaflet_of_id pos) same (isLeaflet_of_id (same ▸ pos))
    rw [← cons_append,append_cons before m,append_cancel_right_eq] at eq
    have last := congrArg List.getLast? eq
    rw [getLast?_concat,getLast?_cons,← getLastD_eq_getLast?,Option.some.injEq] at last
    rw [last,same]
  · intro same
    refine ⟨inner.getLastD c,?_,decide_eq_true same⟩
    rw [← cons_append]
    exact mem_append_left _ (getLastD_mem_cons ..)

theorem stepOf_eq (path : Path root (inner ++ n :: outer) c) (solid : c.isLeaflet = false) {i : Nat}
    (found : n.steps.findIdx? (fun m => m.id = (inner.getLastD c).id && !m.isLeaflet) = some i) :
    p.stepOf n c = .ok i := by
  have nodup := h.nodup_path path solid
  rw [← cons_append] at nodup
  have anchor : ((c :: (inner ++ n :: outer)).takeWhile (·.id ≠ n.id)).getLast? = some (inner.getLastD c) := by
    rw [← cons_append,takeWhile_path nodup,getLast?_cons,getLastD_eq_getLast?]
  unfold Program.stepOf
  dsimp only
  rw [h.ancestors_eq path solid,anchor]
  dsimp only
  rw [found]
  rfl

/-- A variable is declared by a step of `n` that `c` is not inside of: the order of the steps decides. -/
theorem isBeforeDeclaration_eq {s d : Node} {i j : Nat}
    (path : Path root (inner ++ n :: outer) c) (solid : c.isLeaflet = false) (hashable : ∀ m ∈ inner, m.isHashable)
    (kind : (n.isForLoop || n.isBlock)) (hs : s ∈ n.children) (pos : 0 < s.id) (hd : d ∈ s.children)
    (solid' : d.isLeaflet = false) (apart : (inner.getLastD c).id ≠ s.id)
    (found : n.steps.findIdx? (fun m => m.id = (inner.getLastD c).id && !m.isLeaflet) = some i)
    (found' : n.steps.findIdx? (fun m => m.id = s.id && !m.isLeaflet) = some j) :
    p.isBeforeDeclaration n c d = .ok (decide (i ≤ j)) := by
  have step : Path root (n :: outer) s := .child path.suffix hs
  have way : Path root ([s] ++ n :: outer) d := .child step hd
  have nodup := h.nodup_path path solid
  have inner_eq : (p.ancestors c).takeWhile (·.id ≠ n.id) = inner := by
    rw [h.ancestors_eq path solid]
    exact takeWhile_path (nodup_cons.1 nodup).2
  have common : (p.ancestors d).find? (fun m => m.id = n.id || inner.any fun k => k.id = m.id) = some n := by
    have other : s.id ≠ n.id := fun same => by
      simpa [same] using (nodup_cons.1 (h.nodup_path step (isLeaflet_of_id pos))).1
    have outside : inner.any (·.id = s.id) = false := by
      rw [any_eq_false]
      intro k hk same
      rw [decide_eq_true_eq] at same
      refine apart ((h.isInside_iff path solid hs pos).1 ?_)
      rw [Program.isInside,h.ancestors_eq path solid]
      simp only [Bool.or_eq_true,any_eq_true,decide_eq_true_eq]
      exact .inr ⟨k,mem_append_left _ hk,same⟩
    rw [h.ancestors_eq way solid',cons_append,nil_append,find?_cons_of_neg (by simp [other,outside]),
      find?_cons_of_pos (by simp)]
  unfold Program.isBeforeDeclaration
  dsimp only
  rw [inner_eq,common,if_neg (by simpa using hashable)]
  dsimp only
  rw [h.stepOf_eq path solid found,h.stepOf_eq way solid' found']
  cases n <;> first | rfl | cases kind

end Holds

namespace Role

/-- Whatever expressions outside of types can be inside of. -/
def around : List Role :=
  [.expression,.arguments,.variableStatement,.simpleStatement,.statement,.block,.loop,.mark,.routine,.state,
    .contract,.library,.source]

/-- Whatever has no expressions inside outside of types, as far as the analyses look. -/
def closed : List Role :=
  [.empty,.word,.label,.parameter,.variable,.definition,.item,.directive,.clause,.variablesStatement]

def types : List Role :=
  [.typeName,.type,.annotated]

theorem below_around : ∀ r ∈ around, r ≠ .source → ∀ r' ∈ r.below, r' ∈ around ∨ r' ∈ closed ∨ r' ∈ types := by
  decide

theorem below_closed : ∀ r ∈ closed, ¬ (r = .clause ∨ r = .variablesStatement) →
    ∀ r' ∈ r.below, r' ∈ closed ∨ r' ∈ types := by
  decide

end Role

namespace Node

variable {n : Node}

theorem isType_of_role (h : n.role ∈ Role.types) : n.isType := by
  cases n with
  | declaration _ kind => cases kind <;> simp [role,DeclKind.role,Role.types] at h
  | statements _ kind => cases kind <;> simp [role,ListKind.role,Role.types] at h
  | _ => first | rfl | simp [role,Role.types] at h

theorem isHashable_of_role (h : n.role ∈ Role.around) : n.isHashable := by
  cases n <;> first | rfl | simp [role,Role.around] at h

theorem children_eq_nil (h : n.role = .clause ∨ n.role = .variablesStatement) : n.children = [] := by
  cases n with
  | declaration _ kind => cases kind <;> simp [role,DeclKind.role] at h
  | statements _ kind => cases kind <;> simp [role,ListKind.role] at h
  | _ => first | rfl | simp [role] at h

theorem Sees.role {root c : Node} {around : List Node} {s : Scope} (seen : Sees p root around c s)
    (proper : root.Proper) (source : root.role = .source) :
    (∀ m ∈ c :: around, m.role ∈ Role.around) ∨ c.role ∈ Role.closed ∨ c.role ∈ Role.types := by
  induction seen with
  | @unit c hc kind =>
    refine .inl ?_
    intro m hm
    obtain rfl | hm := mem_cons.1 hm
    · obtain role | role := isContract_or_isLibrary.1 kind <;> rw [role] <;> decide
    · rw [mem_singleton.1 hm,source]
      decide
  | @child around n c s t outer name type mem ih =>
    have child := child_of_scope mem
    have below := (outer.child name type mem).path.role_mem_below proper
    obtain all | closed | types := ih
    · have inner : n.role ≠ .source := by
        intro source
        obtain ⟨rfl,-⟩ := outer.path.eq_root proper source
        cases outer
      refine (Role.below_around _ (all n mem_cons_self) inner _ below).imp_left fun here m hm => ?_
      obtain rfl | hm := mem_cons.1 hm
      · exact here
      · exact all m hm
    · refine .inr (Role.below_closed _ closed (fun void => ?_) _ below)
      rw [children_eq_nil void] at child
      cases child
    · rw [isType_of_role types] at type
      cases type

end Node

structure Declares (p : Program) (d : Node) : Prop where
  parent : p.links.parents[d.nameId]? = some d.id
  node : p.node d.id = d

theorem Holds.declares {first : Nat} {root d : Node} {around : List Node} {x : String}
    (h : Holds p first root) (path : Path root around d) (called : d.isCalled x) (hr : d.role ≠ .clause) :
    Declares p d := by
  obtain ⟨i,named⟩ := isCalled_iff.1 called
  have child := ownName_mem_children named hr
  refine ⟨?_,h.node_eq path.mem_subtrees (isLeaflet_of_child child)⟩
  rw [nameId,named]
  exact h.parent _ _ (.child path child) rfl

theorem Builtin.declares {e : String × Nat} {d : Node} (h : Builtin p e d) : Declares p d where
  parent := by
    rw [h.lists.nameId]
    exact h.parent
  node := by
    rw [Program.node_eq_getD,h.node,Option.getD_some]

/-- How the table of `n` tells what is visible at the level of `n`, in a search that starts at `c`, where `c` is
`child` or inside of it. -/
inductive Level (p : Program) (x : String) (n child c : Node) (t : Names) : Prop where
  | unlisted : t.lookup x = none → (n.visibleTo p child).find? (·.isCalled x) = none → Level p x n child c t
  /-- A variable is not known in its own declaration. -/
  | own {d s : Node} : t.lookup x = some d.nameId → Declares p d → p.parent? d = some s → s.isVariableStatement →
      p.isInside s c → (n.visibleTo p child).find? (·.isCalled x) = none → Level p x n child c t
  | member {d : Node} : t.lookup x = some d.nameId → Declares p d →
      (∀ s, p.parent? d = some s → s.isVariableStatement = false) → (n.isForLoop || n.isBlock) = false →
      (n.visibleTo p child).find? (·.isCalled x) = some d → Level p x n child c t
  /-- A variable of a block or a loop is not known before its declaration. -/
  | step {d s : Node} {early : Bool} : t.lookup x = some d.nameId → Declares p d → p.parent? d = some s →
      p.isInside s c = false → (n.isForLoop || n.isBlock) = true → d.isVariable →
      p.isBeforeDeclaration n c d = .ok early →
      (n.visibleTo p child).find? (·.isCalled x) = (if early then none else some d) → Level p x n child c t

namespace Node

variable {n : Node} {x : String}

theorem isLeaflet_of_role (h : n.role ∈ Role.around) : n.isLeaflet = false := by
  cases n <;> first | rfl | simp [role,Role.around] at h

theorem child_of_member {d : Node} (h : d ∈ n.members) (called : d.isCalled x) : d ∈ n.children := by
  refine mem_filter.2 ⟨?_,by rw [isOmitted_of called rfl]; rfl⟩
  cases n with
  | contract =>
    obtain h | h := mem_append.1 h
    all_goals exact mem_cons_of_mem _ (mem_filter.1 h).1
  | library => exact (mem_filter.1 h).1
  | function _ name parameters =>
    change d ∈ name :: parameters.getD [] ++ _ ++ _ ++ _
    simp [show d ∈ parameters.getD [] from h]
  | modifier _ name parameters =>
    change d ∈ name :: parameters ++ _ ++ _
    simp [show d ∈ parameters from h]
  | _ => cases h

theorem Path.role_ne_clause {root d : Node} {around : List Node} (path : Path root (n :: around) d)
    (proper : root.Proper) (hr : n.role ≠ .statement) : d.role ≠ .clause := by
  intro clause
  have below := path.role_mem_below proper
  rw [clause] at below
  generalize n.role = r at below hr
  cases r <;> first | exact hr rfl | exact absurd below (by decide)

end Node

namespace Scoped

variable {p : Program} {first : Nat} {root : Node} (h : Scoped p first root)
include h

variable {inner outer : List Node} {c child d n s : Node} {x : String}

theorem level_members (path : Path root outer n)
    (hr : n.role = .routine ∨ n.role = .contract ∨ n.role = .library) (hx : x ≠ "_") :
    ∃ t, p.names n = .ok t ∧ Level p x n child c t := by
  have tabled := h.tabled n path.mem_preorder (by rcases hr with hr | hr | hr <;> rw [hr] <;> decide)
  have own : ∃ t, p.links.names[n.id]? = some t ∧ Listing t n.declared := by
    obtain own | ⟨carrier,-⟩ := tabled
    · unfold Own at own
      rcases hr with hr | hr | hr <;> (rw [hr] at own; exact own.1)
    · rcases hr with hr | hr | hr <;> (rw [hr] at carrier; exact absurd carrier (by decide))
  obtain ⟨t,names,listing⟩ := own
  have plain : (n.isForLoop || n.isBlock) = false ∧ n.isVariableStatement = false ∧ n.declared = n.members ∧
      n.visibleTo p child = n.members.reverse := by
    cases n with
    | declaration _ kind => cases kind <;> simp [role,DeclKind.role] at hr
    | statements _ kind => cases kind <;> simp [role,ListKind.role] at hr
    | _ => first | exact ⟨rfl,rfl,rfl,rfl⟩ | simp [role] at hr
  obtain ⟨plain,other,declared,visible⟩ := plain
  have lookup := listing x hx
  rw [declared] at lookup
  refine ⟨t,by rw [Program.names,names],?_⟩
  cases found : n.members.reverse.find? (·.isCalled x) with
  | none =>
    rw [found] at lookup
    exact .unlisted lookup (visible ▸ found)
  | some =>
    rw [found] at lookup
    have called := find?_some found
    have mem := mem_reverse.1 (mem_of_find?_eq_some found)
    have path := Path.child path (child_of_member mem called)
    have clause := path.role_ne_clause h.proper (by rcases hr with hr | hr | hr <;> rw [hr] <;> decide)
    refine .member lookup (h.holds.declares path called clause) ?_ plain (visible ▸ found)
    intro s parent
    rw [h.holds.parent?_eq path (isLeaflet_of called fun _ => rfl),Option.some.injEq] at parent
    rw [← parent,other]

omit h in
theorem lookup_builtins (es : Names) (builtins : ∀ e ∈ es, ∃ d, Builtin p e d) (x : String) :
    match es.lookup x with
    | none => (es.filterMap fun e => (p.links.parents[e.2]?).map p.node).find? (·.isCalled x) = none
    | some k => ∃ d, Builtin p (x,k) d ∧
        (es.filterMap fun e => (p.links.parents[e.2]?).map p.node).find? (·.isCalled x) = some d := by
  induction es with
  | nil => rfl
  | cons e _ ih =>
    rw [forall_mem_cons] at builtins
    obtain ⟨⟨d,builtin⟩,rest⟩ := builtins
    have head : (p.links.parents[e.2]?).map p.node = some d := by
      rw [builtin.parent,Option.map_some,builtin.declares.node]
    rw [filterMap_cons,head,Names.lookup_cons]
    dsimp only
    rw [find?_cons,builtin.lists.isCalled]
    by_cases same : e.1 = x
    · subst same
      rw [if_pos rfl,beq_self_eq_true]
      exact ⟨d,builtin,rfl⟩
    · rw [if_neg (Ne.symm same),beq_eq_false_iff_ne.2 same]
      exact ih rest

theorem level_source : ∃ t, p.names root = .ok t ∧ Level p x root child c t := by
  obtain ⟨t,names,lookup⟩ := h.outermost
  obtain ⟨i,as,bs,single,rfl⟩ := exists_of_isSource (isSource_iff.2 h.source)
  generalize root_eq : Node.source i as bs single = root at *
  have plain : (root.isForLoop || root.isBlock) = false ∧ root.isVariableStatement = false ∧
      root.visibleTo p child = p.builtins.reverse ++ p.contracts.reverse := root_eq ▸ ⟨rfl,rfl,rfl⟩
  obtain ⟨plain,other,visible⟩ := plain
  have contracts : p.contracts = root.units.filter (·.isContract) := by
    rw [Program.contracts,h.tree_eq,← root_eq]
    rfl
  have builtins := lookup_builtins p.globalNames.reverse
    (fun e he => (h.builtins e (mem_reverse.1 he)).imp fun _ => And.left) x
  rw [filterMap_reverse] at builtins
  specialize lookup x
  rw [← contracts] at lookup
  refine ⟨t,by rw [Program.names,names],?_⟩
  split at builtins
  next unknown =>
    have visible : (root.visibleTo p child).find? (·.isCalled x) = p.contracts.reverse.find? (·.isCalled x) := by
      rw [visible,find?_append,show p.builtins.reverse.find? _ = none from builtins,Option.none_or]
    rw [unknown,Option.none_or] at lookup
    cases found : p.contracts.reverse.find? (·.isCalled x) with
    | none =>
      rw [found] at lookup
      exact .unlisted lookup (visible.trans found)
    | some d =>
      rw [found] at lookup
      have called := find?_some found
      have mem := mem_reverse.1 (mem_of_find?_eq_some found)
      rw [contracts] at mem
      have child : d ∈ root.children := by
        refine mem_filter.2 ⟨?_,by rw [isOmitted_of called rfl]; rfl⟩
        subst root_eq
        exact (mem_filter.1 mem).1
      have path : Path root [root] d := .child .root child
      have clause := path.role_ne_clause h.proper (by rw [h.source]; decide)
      refine .member lookup (h.holds.declares path called clause) ?_ plain (visible.trans found)
      intro s parent
      rw [h.holds.parent?_eq path (isLeaflet_of called fun _ => rfl),Option.some.injEq] at parent
      rw [← parent,other]
  next k found =>
    obtain ⟨d,builtin,first⟩ := builtins
    rw [found,Option.some_or,show k = d.nameId from builtin.lists.nameId.symm] at lookup
    refine .member lookup builtin.declares ?_ plain ?_
    · intro s parent
      rw [Program.parent?,builtin.alone] at parent
      cases parent
    · rw [visible,find?_append,show p.builtins.reverse.find? _ = some d from first,Option.some_or]

omit h in
theorem bare_of_role (hr : n.role ∈ Role.around) (carrier : n.role ∈ carriers)
    (places : n.keepsPlaces) (hc : child ∈ n.children) (hr' : child.role ∈ Role.around) :
    (n.isBare || n.isLeaflet) = false := by
  cases n with
  | create _ type =>
    have eq : child = type := by
      simpa [children,visited,parts] using (mem_filter.1 hc).1
    rw [keepsPlaces,Bool.or_eq_true,decide_eq_true_eq,decide_eq_true_eq,← eq] at places
    obtain role | role := places
    all_goals
      rw [role] at hr'
      exact absurd hr' (by decide)
  | callOptions | metaType | range => cases hc
  | library => simp [role,carriers] at carrier
  | _ => first | rfl | simp [role,Role.around] at hr

omit h in
theorem names_of_carrier (tabled : Tabled p n) (hr : n.role ∈ carriers) (solid : (n.isBare || n.isLeaflet) = false) :
    ∃ t, p.names n = .ok t ∧ (Forall₂ Lists n.carried t ∨ t = []) := by
  unfold Program.names
  obtain own | ⟨-,cleared⟩ := tabled
  · have carries := own.carries hr
    unfold Carries at carries
    cases found : p.links.names[n.id]? with
    | some t =>
      rw [found] at carries
      exact ⟨t,rfl,.inl carries⟩
    | none =>
      dsimp only
      rw [solid]
      exact ⟨[],rfl,.inr rfl⟩
  · rw [cleared]
    exact ⟨[],rfl,.inr rfl⟩

theorem level_carrier (path : Path root (inner ++ n :: outer) c)
    (solid : c.isLeaflet = false) (hr : n.role ∈ Role.around) (carrier : n.role ∈ carriers)
    (hc : (inner.getLastD c).role ∈ Role.around) : ∃ t, p.names n = .ok t ∧ Level p x n child c t := by
  have tabled := h.tabled n path.suffix.mem_preorder (by
    intro source
    rw [source] at carrier
    exact absurd carrier (by decide))
  have visible : (n.visibleTo p child).find? (·.isCalled x) = none := by
    cases n with
    | statements _ kind => cases kind <;> simp [role,ListKind.role,carriers] at carrier
    | _ => first | rfl | simp [role,carriers] at carrier
  have bare := bare_of_role hr carrier (isProper_iff.1 (path.suffix.proper h.proper)).2.1 path.last_mem_children hc
  obtain ⟨t,names,lists⟩ := names_of_carrier tabled carrier bare
  refine ⟨t,names,?_⟩
  rw [carried_eq_local (by intro var; rw [var] at hr; exact absurd hr (by decide))] at lists
  cases n with
  | variableStatement i d value =>
    obtain lists | rfl := lists
    · obtain ⟨e,_,listed,rest,rfl⟩ := forall₂_cons_left_iff.1 lists
      cases rest with
      | nil =>
        by_cases same : x = e.1
        · have places := (isProper_iff.1 (path.suffix.proper h.proper)).2.1
          simp only [keepsPlaces,Bool.and_eq_true,decide_eq_true_eq] at places
          have called : d.isCalled x := by rw [listed.isCalled,same,beq_self_eq_true]
          have child : d ∈ (variableStatement i d value).children :=
            mem_filter.2 ⟨mem_cons_self,by rw [isOmitted_of called rfl]; rfl⟩
          have way := Path.child path.suffix child
          have lookup : List.lookup x [e] = some d.nameId := by
            rw [Names.lookup_cons,if_pos same,listed.nameId]
          have declares := h.holds.declares way called (by rw [places.1]; decide)
          have parent := h.holds.parent?_eq way (isLeaflet_of called fun _ => rfl)
          have inside : p.isInside (variableStatement i d value) c := by
            rw [Program.isInside,h.holds.ancestors_eq path solid]
            simp
          exact .own lookup declares parent rfl inside visible
        · exact .unlisted (by rw [Names.lookup_cons,if_neg same]; rfl) visible
    · exact .unlisted rfl visible
  | _ =>
    have nothing : t = [] := by
      obtain lists | rfl := lists
      · cases lists
        rfl
      · rfl
    rw [nothing]
    exact .unlisted rfl visible

omit h in
theorem of_local (proper : s.isProper) (hd : s.local? = some d) :
    s.isVariableStatement ∧ d.isVariable ∧ d.role = .variable ∧ d ∈ s.children := by
  cases s with
  | variableStatement i =>
    cases hd
    have places := (isProper_iff.1 proper).2.1
    simp only [keepsPlaces,Bool.and_eq_true,decide_eq_true_eq] at places
    have role := places.1
    have var : d.isVariable ∧ d.isOmitted = false := by
      cases d with
      | declaration _ kind => cases kind <;> first | exact ⟨rfl,rfl⟩ | cases role
      | statements _ kind => cases kind <;> cases role
      | _ => cases role
    exact ⟨rfl,var.1,role,mem_filter.2 ⟨mem_cons_self,by rw [var.2]; rfl⟩⟩
  | _ => cases hd

theorem declares_local (path : Path root outer n) (hs : s ∈ n.children)
    (hd : s.local? = some d) (called : d.isCalled x) : Path root (s :: n :: outer) d ∧ Declares p d := by
  have step := Path.child path hs
  obtain ⟨-,-,role,child⟩ := of_local (step.proper h.proper) hd
  have way := Path.child step child
  exact ⟨way,h.holds.declares way called (by rw [role]; decide)⟩

theorem local_unique {s' d' : Node} (path : Path root outer n)
    (distinct : Distinct (n.children.filterMap local?)) (hs : s ∈ n.children) (hd : s.local? = some d)
    (called : d.isCalled x) (hs' : s' ∈ n.children) (hd' : s'.local? = some d') (called' : d'.isCalled x) :
    d' = d ∧ s' = s := by
  obtain ⟨way,declares⟩ := h.declares_local path hs hd called
  obtain ⟨way',declares'⟩ := h.declares_local path hs' hd' called'
  have name := distinct d' (mem_filterMap.2 ⟨s',hs',hd'⟩) d (mem_filterMap.2 ⟨s,hs,hd⟩) x called' called
  have id : d'.id = d.id := by
    have parent := declares'.parent
    rw [name,declares.parent,Option.some.injEq] at parent
    exact parent.symm
  obtain ⟨rfl,around⟩ := h.holds.path_unique way way' (isLeaflet_of called fun _ => rfl) id (isLeaflet_of called' fun _ => rfl)
  exact ⟨rfl,(List.cons.inj around).1⟩

omit h in
theorem find?_locals (cs : List Node) (hd : s.local? = some d) (called : d.isCalled x)
    (unique : ∀ s' ∈ cs, ∀ d', s'.local? = some d' → d'.isCalled x → d' = d ∧ s' = s) :
    (s ∈ cs → (cs.filterMap local?).reverse.find? (·.isCalled x) = some d) ∧
      (s ∉ cs → (cs.filterMap local?).reverse.find? (·.isCalled x) = none) := by
  constructor
  · intro hs
    cases found : (cs.filterMap local?).reverse.find? (·.isCalled x) with
    | none =>
      rw [find?_eq_none] at found
      exact absurd called (found d (mem_reverse.2 (mem_filterMap.2 ⟨s,hs,hd⟩)))
    | some d' =>
      obtain ⟨s',hs',hd'⟩ := mem_filterMap.1 (mem_reverse.1 (mem_of_find?_eq_some found))
      rw [(unique s' hs' d' hd' (find?_some found)).1]
  · intro hs
    rw [find?_eq_none]
    intro d' hd' called'
    obtain ⟨s',hs',hd'⟩ := mem_filterMap.1 (mem_reverse.1 hd')
    rw [(unique s' hs' d' hd' called').2] at hs'
    exact hs hs'

theorem level_steps (path : Path root (inner ++ n :: outer) c)
    (solid : c.isLeaflet = false) (hr : n.role = .block ∨ n.role = .loop) (hashable : ∀ m ∈ inner, m.isHashable)
    (pos : 0 < (inner.getLastD c).id) (hx : x ≠ "_") :
    ∃ t, p.names n = .ok t ∧ Level p x n (inner.getLastD c) c t := by
  have tabled := h.tabled n path.suffix.mem_preorder (by rcases hr with hr | hr <;> rw [hr] <;> decide)
  have own : ∃ t, p.links.names[n.id]? = some t ∧ Listing t n.declared ∧ Distinct n.declared := by
    obtain own | ⟨carrier,-⟩ := tabled
    · unfold Own at own
      rcases hr with hr | hr <;> (rw [hr] at own; exact own.imp fun _ h => h.imp_right And.left)
    · rcases hr with hr | hr <;> (rw [hr] at carrier; exact absurd carrier (by decide))
  obtain ⟨t,names,listing,distinct⟩ := own
  have kind : (n.isForLoop || n.isBlock) ∧ (n.isBlock || n.isForLoop) ∧
      n.declared = n.children.filterMap local? := by
    rcases hr with hr | hr <;> cases n with
    | declaration _ kind => cases kind <;> cases hr
    | statements _ kind => cases kind <;> cases hr <;> exact ⟨rfl,rfl,rfl⟩
    | _ => cases hr <;> exact ⟨rfl,rfl,rfl⟩
  obtain ⟨kind,kind',declared⟩ := kind
  have lookup := listing x hx
  rw [declared] at lookup distinct
  have visible : n.visibleTo p (inner.getLastD c) =
      ((n.children.takeWhile (·.id ≠ (inner.getLastD c).id)).filterMap local?).reverse := by
    rw [visibleTo,if_pos kind']
  have before {s : Node} (hs : s ∈ n.children.takeWhile (·.id ≠ (inner.getLastD c).id)) : s ∈ n.children :=
    (takeWhile_sublist _).subset hs
  refine ⟨t,by rw [Program.names,names],?_⟩
  cases found : (n.children.filterMap local?).reverse.find? (·.isCalled x) with
  | none =>
    rw [found] at lookup
    refine .unlisted lookup ?_
    rw [visible]
    rw [find?_eq_none] at found ⊢
    intro d hd
    obtain ⟨s,hs,hd⟩ := mem_filterMap.1 (mem_reverse.1 hd)
    exact found d (mem_reverse.2 (mem_filterMap.2 ⟨s,before hs,hd⟩))
  | some =>
    rw [found] at lookup
    have called := find?_some found
    obtain ⟨s,hs,hd⟩ := mem_filterMap.1 (mem_reverse.1 (mem_of_find?_eq_some found))
    obtain ⟨way,declares⟩ := h.declares_local path.suffix hs hd called
    have step := Path.child path.suffix hs
    obtain ⟨statement,var,-,child⟩ := of_local (step.proper h.proper) hd
    have parent := h.holds.parent?_eq way (isLeaflet_of called fun _ => rfl)
    have pos' := h.pos_of_path step child
    have finds := find?_locals (n.children.takeWhile (·.id ≠ (inner.getLastD c).id)) hd called
      fun s' hs' d' hd' called' => h.local_unique path.suffix distinct hs hd called (before hs') hd' called'
    rw [← visible] at finds
    by_cases inside : (inner.getLastD c).id = s.id
    · refine .own lookup declares parent statement ((h.holds.isInside_iff path solid hs pos').2 inside) (finds.2 ?_)
      intro early
      exact of_decide_eq_true (all_eq_true.1 all_takeWhile s early) inside.symm
    · have outside : p.isInside s c = false :=
        Bool.eq_false_iff.2 fun h' => inside ((h.holds.isInside_iff path solid hs pos').1 h')
      obtain ⟨i,j,at_c,at_s,order⟩ := ordered_of_local kind (path.suffix.proper h.proper)
        (nodup_parts path.suffix h.holds.nodup) path.last_mem_children pos hs pos' hd inside
      have early := h.holds.isBeforeDeclaration_eq path solid hashable kind hs pos' child (isLeaflet_of called fun _ => rfl)
        inside at_c at_s
      refine .step lookup declares parent outside kind var early ?_
      by_cases le : i ≤ j
      · rw [decide_eq_true le,if_pos rfl]
        exact finds.2 fun mem => order.1 mem le
      · rw [decide_eq_false le,if_neg (by simp)]
        exact finds.1 (order.2 le)

theorem exists_level (path : Path root (inner ++ n :: outer) c)
    (roles : ∀ m ∈ c :: (inner ++ n :: outer), m.role ∈ Role.around) (hx : x ≠ "_") :
    ∃ t, p.names n = .ok t ∧ Level p x n (inner.getLastD c) c t := by
  have solid := isLeaflet_of_role (roles c mem_cons_self)
  have last : (inner.getLastD c).role ∈ Role.around := by
    refine roles _ ?_
    rw [← cons_append]
    exact mem_append_left _ (getLastD_mem_cons ..)
  have pos : 0 < (inner.getLastD c).id :=
    h.holds.pos.trans_le (h.holds.range _ path.last.mem_subtrees (isLeaflet_of_role last)).1
  have hr := roles n (by simp)
  by_cases carrier : n.role ∈ carriers
  · exact h.level_carrier path solid hr carrier last
  by_cases steps : n.role = .block ∨ n.role = .loop
  · exact h.level_steps path solid steps (fun m hm => isHashable_of_role (roles m (by simp [hm]))) pos hx
  by_cases source : n.role = .source
  · obtain ⟨-,rfl⟩ := path.suffix.eq_root h.proper source
    exact h.level_source
  refine h.level_members path.suffix ?_ hx
  generalize n.role = r at *
  revert hr carrier steps source
  revert r
  decide

end Scoped

end Confidential
