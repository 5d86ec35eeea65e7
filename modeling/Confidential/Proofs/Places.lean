import Confidential.Proofs.Numbering
import Confidential.Proofs.Runs

/-!
Where the nodes of a numbered tree are found.
-/

namespace Confidential

open List

namespace Node

/-- The way to a node through the children, with the nodes around it from the inside out. -/
inductive Path (root : Node) : List Node → Node → Prop where
  | root : Path root [] root
  | child {around : List Node} {n c : Node} : Path root around n → c ∈ n.children → Path root (n :: around) c

theorem visited_sublist_parts (n : Node) : n.visited.Sublist n.parts := by
  cases n with
  | mapping _ a b c =>
    change (if b.isIdentifier then [a,b,c] else [a,c]).Sublist [a,b,c]
    split <;> simp
  | functionType | function => simp [visited,parts]
  | _ => simp [visited,parts]

theorem preorder_eq (n : Node) : n.preorder = n :: n.children.flatMap preorder := by
  rw [preorder]
  simp

theorem children_sublist (n : Node) : n.children.Sublist n.parts :=
  filter_sublist.trans n.visited_sublist_parts

theorem flatMap_sublist {α β : Type} {l l' : List α} (h : l.Sublist l') {f g : α → List β}
    (hfg : ∀ a ∈ l', (f a).Sublist (g a)) : (l.flatMap f).Sublist (l'.flatMap g) := by
  induction h with
  | slnil => exact .slnil
  | cons _ _ ih =>
    rw [forall_mem_cons] at hfg
    exact (ih hfg.2).trans (sublist_append_right _ _)
  | cons_cons _ _ ih =>
    rw [forall_mem_cons] at hfg
    rw [flatMap_cons,flatMap_cons]
    exact hfg.1.append (ih hfg.2)

theorem preorder_sublist (n : Node) : n.preorder.Sublist n.subtrees := by
  induction n with
  | step n ih =>
    rw [preorder_eq,subtrees_eq]
    exact (flatMap_sublist n.children_sublist ih).cons_cons n

theorem self_mem_preorder (n : Node) : n ∈ n.preorder := by
  rw [preorder_eq]
  exact mem_cons_self

variable {around : List Node} {c m n root : Node}

variable {a b : Node}

theorem mem_preorder_of_child (h : n ∈ m.preorder) (hc : c ∈ n.children) : c ∈ m.preorder := by
  induction m with
  | step _ ih =>
    rw [preorder_eq,mem_cons,mem_flatMap] at h ⊢
    obtain rfl | ⟨d,hd,hn⟩ := h
    · exact .inr ⟨c,hc,self_mem_preorder c⟩
    · exact .inr ⟨d,hd,ih d (part_of_child hd) hn⟩

theorem Path.mem_preorder (h : Path root around n) : n ∈ root.preorder := by
  induction h with
  | root => exact self_mem_preorder root
  | child _ hc ih => exact mem_preorder_of_child ih hc

theorem path_of_preorder (path : Path root around n) (hm : m ∈ n.preorder) :
    ∃ inner, Path root (inner ++ around) m ∧ ∀ a ∈ inner, a ∈ n.subtrees := by
  induction n generalizing around with
  | step n ih =>
    rw [preorder_eq,mem_cons,mem_flatMap] at hm
    obtain rfl | ⟨c,hc,hm⟩ := hm
    · exact ⟨[],path,by simp⟩
    · have part := part_of_child hc
      obtain ⟨inner,path,within⟩ := ih c part (path.child hc) hm
      refine ⟨inner ++ [n],by simpa using path,fun a ha => ?_⟩
      obtain ha | ha := mem_append.1 ha
      · exact mem_subtrees.2 (.inr ⟨c,part,within a ha⟩)
      · exact mem_subtrees.2 (.inl (mem_singleton.1 ha))

theorem isLeaflet_of_child (h : c ∈ n.children) : n.isLeaflet = false := by
  cases n <;> first | rfl | cases h

theorem Path.length_le (h : Path root around n) : around.length + n.numbers.length ≤ root.numbers.length := by
  induction h with
  | root => exact Nat.le_of_eq (Nat.zero_add _)
  | @child around n c _ hc ih =>
    have inner : c.numbers.Sublist (n.parts.flatMap numbers) := by
      refine sublist_flatten_of_mem ?_
      exact mem_map_of_mem (part_of_child hc)
    have length := inner.length_le
    rw [numbers_eq n,isLeaflet_of_child hc] at ih
    simp only [Bool.false_eq_true,if_false,singleton_append,length_cons] at ih
    rw [length_cons]
    omega

theorem Path.mem_subtrees (h : Path root around n) : n ∈ root.subtrees :=
  root.preorder_sublist.subset h.mem_preorder

theorem Path.proper (h : Path root around n) (hp : root.Proper) : n.isProper :=
  hp n h.mem_subtrees

theorem number_mem (hm : m ∈ n.subtrees) (solid : m.isLeaflet = false) : m.id ∈ n.numbers :=
  mem_map_of_mem (mem_filter.2 ⟨hm,by simp [solid]⟩)

theorem eq_of_id {m' : Node} (nodup : root.numbers.Nodup) (hm : m ∈ root.subtrees)
    (hm' : m' ∈ root.subtrees) (solid : m.isLeaflet = false) (solid' : m'.isLeaflet = false)
    (same : m.id = m'.id) : m = m' := by
  refine inj_on_of_nodup_map nodup ?_ ?_ same
  · exact mem_filter.2 ⟨hm,by simp [solid]⟩
  · exact mem_filter.2 ⟨hm',by simp [solid']⟩

theorem sizeOf_le_of_mem (h : m ∈ n.subtrees) : sizeOf m ≤ sizeOf n := by
  induction n with
  | step _ ih =>
    obtain rfl | ⟨c,hc,hm⟩ := mem_subtrees.1 h
    · exact le_rfl
    · exact Nat.le_of_lt (Nat.lt_of_le_of_lt (ih c hc hm) (sizeOf_lt_part hc))

theorem mem_trans (h : a ∈ b.subtrees) (h' : b ∈ c.subtrees) : a ∈ c.subtrees := by
  induction c with
  | step _ ih =>
    obtain rfl | ⟨d,hd,inner⟩ := mem_subtrees.1 h'
    · exact h
    · exact mem_subtrees.2 (.inr ⟨d,hd,ih d hd inner⟩)

theorem Proper.inside (proper : n.Proper) (hm : m ∈ n.subtrees) : m.Proper :=
  fun k hk => proper k (mem_trans hk hm)

theorem Proper.role_of_mem {P : Role → Prop} (down : ∀ r s, r ∈ s.below → P s → P r) (proper : n.Proper)
    (top : P n.role) : ∀ m ∈ n.subtrees, P m.role := by
  induction n with
  | step _ ih =>
    intro m hm
    obtain rfl | ⟨c,hc,hm⟩ := mem_subtrees.1 hm
    · exact top
    · obtain ⟨own,parts⟩ := proper_iff.1 proper
      exact ih c hc (parts c hc) (down _ _ ((isProper_iff.1 own).1 c hc) top) m hm

theorem mem_of_part (h : n ∈ m.subtrees) (hc : c ∈ n.parts) : c ∈ m.subtrees := by
  induction m with
  | step _ ih =>
    rw [mem_subtrees] at h ⊢
    obtain rfl | ⟨d,hd,hn⟩ := h
    · exact .inr ⟨c,hc,self_mem⟩
    · exact .inr ⟨d,hd,ih d hd hn⟩

theorem eq_of_part (nodup : root.numbers.Nodup) (ha : a ∈ root.subtrees)
    (hb : b ∈ root.subtrees) (hc : c ∈ a.parts) (hc' : c ∈ b.parts) (solid : c.isLeaflet = false) : a = b := by
  induction root with
  | step root ih =>
    rw [numbers_eq,nodup_append] at nodup
    obtain ⟨each,apart⟩ := nodup_flatMap.1 nodup.2.1
    have number {e n : Node} (hn : n ∈ e.subtrees) (hc : c ∈ n.parts) : c.id ∈ e.numbers :=
      number_mem (mem_of_part hn hc) solid
    have one {e e' : Node} (he : e ∈ root.parts) (he' : e' ∈ root.parts) (h : c.id ∈ e.numbers)
        (h' : c.id ∈ e'.numbers) : e = e' := by
      have : Std.Symm (Function.onFun List.Disjoint numbers) := ⟨fun _ _ h _ ha hb => h hb ha⟩
      by_contra ne
      exact apart.forall he he' ne h h'
    have self : c.id ∈ c.numbers := number_mem self_mem solid
    -- A direct part of the root is no part of a node further down.
    have top {e n : Node} (hroot : c ∈ root.parts) (he : e ∈ root.parts) (hn : n ∈ e.subtrees)
        (hc : c ∈ n.parts) : False := by
      have same := one hroot he self (number hn hc)
      have small := sizeOf_lt_part hc
      have large := sizeOf_le_of_mem hn
      rw [← same] at large
      omega
    obtain rfl | ⟨e,he,inner⟩ := mem_subtrees.1 ha
    · obtain rfl | ⟨e,he,inner⟩ := mem_subtrees.1 hb
      · rfl
      · exact (top hc he inner hc').elim
    · obtain rfl | ⟨e',he',inner'⟩ := mem_subtrees.1 hb
      · exact (top hc' he inner hc).elim
      · cases one he he' (number inner hc) (number inner' hc')
        exact ih e he (each e he) inner inner'

def placings (place : Place) (n : Node) : List (Node × Place) :=
  (n,place) :: n.children.attach.flatMap fun ⟨c,_⟩ => c.placings (place.inside n)
termination_by sizeOf n
decreasing_by exact sizeOf_lt_child (by assumption)

theorem placings_eq (place : Place) (n : Node) :
    n.placings place = (n,place) :: n.children.flatMap (placings (place.inside n)) := by
  rw [placings]
  simp

theorem map_fst_placings (place : Place) (n : Node) : (n.placings place).map (·.1) = n.preorder := by
  induction n generalizing place with
  | step _ ih =>
    rw [placings_eq,preorder_eq,map_cons,map_flatMap]
    congr 1
    exact flatMap_congr fun c hc => ih c (part_of_child hc) _

theorem mem_placings_of_child {place place' : Place} (h : (n,place') ∈ m.placings place)
    (hc : c ∈ n.children) : (c,place'.inside n) ∈ m.placings place := by
  induction m generalizing place with
  | step _ ih =>
    rw [placings_eq,mem_cons,mem_flatMap] at h ⊢
    obtain h | ⟨d,hd,hn⟩ := h
    · cases h
      refine .inr ⟨c,hc,?_⟩
      rw [placings_eq]
      exact mem_cons_self
    · exact .inr ⟨d,hd,ih d (part_of_child hd) hn⟩

end Node

def Place.within : List Node → Place
  | [] => {}
  | n :: around => (within around).inside n

variable {m n : Node} {p p' : Program}

theorem Node.Path.mem_placings {root : Node} {around : List Node} (h : Path root around n) :
    (n,Place.within around) ∈ root.placings {} := by
  induction h with
  | root =>
    rw [placings_eq]
    exact mem_cons_self
  | child _ hc ih => exact mem_placings_of_child ih hc

namespace Links

theorem recordAll_eq (place : Place) (n : Node) (l : Links) : recordAll place n l =
      if n.lacksParameters then .error .misused
      else n.children.foldlM (fun l c => recordAll (place.inside n) c l) (l.record place n) := by
  rw [recordAll]
  split
  · rfl
  · simp

theorem recordAll_eq_ite (place : Place) (n : Node) (l : Links) :
    recordAll place n l = if n.preorder.any (·.lacksParameters) then .error .misused
      else .ok ((n.placings place).foldl (fun l e => l.record e.2 e.1) l) := by
  induction n generalizing place l with
  | step n ih =>
    rw [recordAll_eq,Node.preorder_eq,Node.placings_eq,any_cons,foldl_cons]
    cases n.lacksParameters with
    | true => rfl
    | false =>
      have below : ∀ c ∈ n.children, ∀ l, recordAll (place.inside n) c l = _ :=
        fun c hc l => ih c (Node.part_of_child hc) (place.inside n) l
      simp only [Bool.false_eq_true,if_false,Bool.false_or]
      generalize l.record place n = start
      generalize n.children = cs at below ⊢
      induction cs generalizing start with
      | nil => rfl
      | cons c _ ihc =>
        rw [forall_mem_cons] at below
        rw [foldlM_cons,below.1 start,flatMap_cons,flatMap_cons,any_append,foldl_append]
        cases c.preorder.any (·.lacksParameters) with
        | true => rfl
        | false => exact ihc _ below.2

variable {n : Node}

theorem recordAll_eq_ok {place : Place} {l l' : Links} (h : recordAll place n l = .ok l') :
    l' = (n.placings place).foldl (fun l e => l.record e.2 e.1) l := by
  rw [recordAll_eq_ite] at h
  split at h
  · cases h
  · exact (Except.ok.inj h).symm

theorem getElem?_put {α : Type} (t : Table α) (k j : Nat) (a : Option α) :
    (put t k a)[j]? = if k = j then a.or t[j]? else t[j]? := by
  cases a with
  | none => simp [put]
  | some => simp [put,Std.TreeMap.getElem?_insert]

section Folds

variable {ι α : Type} {key : ι → Nat} {val : ι → Option α} {es : List ι} {k : Nat}

theorem getElem?_foldl_put_ne (other : ∀ e ∈ es, key e ≠ k) (t : Table α) :
    (es.foldl (fun t e => put t (key e) (val e)) t)[k]? = t[k]? := by
  induction es generalizing t with
  | nil => rfl
  | cons _ _ ih =>
    rw [forall_mem_cons] at other
    rw [foldl_cons,ih other.2,getElem?_put,if_neg other.1]

theorem getElem?_foldl_put {v : Option α} (same : ∀ e ∈ es, key e = k → val e = v)
    (full : ∃ e ∈ es, key e = k) (t : Table α) :
    (es.foldl (fun t e => put t (key e) (val e)) t)[k]? = v.or t[k]? := by
  induction es generalizing t with
  | nil => simp at full
  | cons e es ih =>
    rw [forall_mem_cons] at same
    rw [foldl_cons]
    by_cases later : ∃ e ∈ es, key e = k
    · rw [ih same.2 later,getElem?_put]
      split
      next he => rw [same.1 he,← Option.or_assoc,Option.or_self]
      next => rfl
    · have he : key e = k := by
        obtain ⟨e',mem,he⟩ := full
        obtain rfl | mem := mem_cons.1 mem
        · exact he
        · exact absurd ⟨e',mem,he⟩ later
      rw [getElem?_foldl_put_ne (fun e' mem he => later ⟨e',mem,he⟩),getElem?_put,if_pos he,same.1 he]

end Folds

theorem foldl_record (es : List (Node × Place)) (l : Links) : es.foldl (fun l e => l.record e.2 e.1) l =
      { l with
        parents := es.foldl (fun t e => put t e.1.id e.2.parent) l.parents
        namespaces := es.foldl (fun t e => put t e.1.id (e.2.namespaceWith e.1)) l.namespaces
        statements := es.foldl (fun t e => put t e.1.id (if e.1.isExpression then e.2.statement else none))
          l.statements
        functions := es.foldl (fun t e => put t e.1.id (if e.1.isStatement then e.2.function else none))
          l.functions } := by
  induction es generalizing l with
  | nil => rfl
  | cons e _ ih =>
    rw [foldl_cons,ih]
    simp only [foldl_cons,record]
    cases e.1.isExpression <;> cases e.1.isStatement <;> rfl

theorem recordAll_frame {place : Place} {l l' : Links} (h : recordAll place n l = .ok l') {k : Nat}
    (other : ∀ m ∈ n.preorder, m.id ≠ k) :
    l'.parents[k]? = l.parents[k]? ∧ l'.statements[k]? = l.statements[k]? ∧
      l'.functions[k]? = l.functions[k]? ∧ l'.names = l.names := by
  have apart : ∀ e ∈ n.placings place, e.1.id ≠ k := by
    intro e he
    refine other e.1 ?_
    rw [← Node.map_fst_placings place n]
    exact mem_map_of_mem he
  rw [recordAll_eq_ok h,foldl_record]
  refine ⟨?_,?_,?_,rfl⟩
  all_goals exact getElem?_foldl_put_ne apart _

end Links

variable {t : Table Node} {first k : Nat} {ms : List Node}

theorem Program.node_eq_getD (p : Program) (k : Nat) : p.node k = (p.nodes[k]?).getD .omitted :=
  Std.TreeMap.getD_eq_getD_getElem?

theorem Node.isLeaflet_of_id (h : 0 < n.id) : n.isLeaflet = false := by
  cases n <;> first | rfl | exact absurd h (Nat.lt_irrefl 0)

def withNodes (t : Table Node) (first : Nat) (ms : List Node) : Table Node :=
  ms.foldl (fun t m => if first ≤ m.id then t.insert m.id m else t) t

theorem withNodes_eq (t : Table Node) (first : Nat) (ms : List Node) :
    withNodes t first ms = ms.foldl (fun t m => Links.put t m.id (if first ≤ m.id then some m else none)) t := by
  unfold withNodes
  congr 1
  funext t m
  split <;> rfl

theorem getElem?_withNodes (hm : m ∈ ms)
    (new : first ≤ m.id) (only : ∀ m' ∈ ms, m'.id = m.id → m' = m) : (withNodes t first ms)[m.id]? = some m := by
  rw [withNodes_eq,Links.getElem?_foldl_put (v := some m) ?_ ⟨m,hm,rfl⟩,Option.some_or]
  intro m' hm' same
  rw [if_pos (same ▸ new),only m' hm' same]

theorem getElem?_withNodes_of_lt (hk : k < first) :
    (withNodes t first ms)[k]? = t[k]? := by
  rw [withNodes_eq]
  induction ms generalizing t with
  | nil => rfl
  | cons _ _ ih =>
    rw [foldl_cons,ih,Links.getElem?_put]
    split
    · rw [if_neg (by omega),Option.none_or]
    · rfl

theorem mem_withNodes (h : (withNodes t first ms)[k]? = some n) : t[k]? = some n ∨ n ∈ ms ∧ n.id = k := by
  unfold withNodes at h
  induction ms generalizing t with
  | nil => exact .inl h
  | cons _ _ ih =>
    obtain old | ⟨mem,same⟩ := ih h
    · dsimp only at old
      split at old
      · rw [Std.TreeMap.getElem?_insert] at old
        split at old
        next same =>
          cases old
          exact .inr ⟨mem_cons_self,Std.compare_eq_iff_eq.1 same⟩
        next => exact .inl old
      · exact .inl old
    · exact .inr ⟨mem_cons_of_mem _ mem,same⟩

/-- The tree `n` has just been made known: its nodes have the numbers from `p.next` on. -/
structure Registered (p : Program) (n : Node) (p' : Program) : Prop where
  le : p.next ≤ p'.next
  numbers : n.numbers = List.range' p.next (p'.next - p.next)
  eq : p' = { p with
    next := p'.next
    nodes := withNodes p.nodes p.next n.subtrees }

theorem Pass.runs_register : Runs (register n) p m p' ↔ (n.numbered p.next).1 = m ∧ { p with
    next := (n.numbered p.next).2
    nodes := withNodes p.nodes p.next (n.numbered p.next).1.subtrees } = p' := by
  change (Except.ok _,_) = (Except.ok m,p') ↔ _
  rw [Prod.mk.injEq,Except.ok.injEq]
  rfl

theorem registered_of_runs (h : n.Unnumbered) (run : Pass.Runs (Pass.register n) p m p') : Registered p m p' := by
  have numbered := Node.numberedFrom_numbered h p.next
  obtain ⟨rfl,rfl⟩ := Pass.runs_register.1 run
  exact ⟨numbered.le,by simpa using numbered.numbers,rfl⟩

theorem renumbered_of_runs (h : n.Unnumbered) (run : Pass.Runs (Pass.register n) p m p') :
    Forall₂ Node.Renumbered n.subtrees m.subtrees := by
  have numbered := Node.numberedFrom_numbered h p.next
  rw [← (Pass.runs_register.1 run).1]
  simpa using numbered.nodes

theorem role_eq_of_renumbered (h : Forall₂ Node.Renumbered n.subtrees m.subtrees) : m.role = n.role := by
  rw [Node.subtrees_eq,Node.subtrees_eq m] at h
  cases h with
  | cons first => exact first.role

namespace Registered

variable {p p' : Program} {n : Node} (h : Registered p n p')
include h

theorem mem_numbers (hm : m ∈ n.subtrees) (solid : m.isLeaflet = false) :
    p.next ≤ m.id ∧ m.id < p'.next := by
  have mem := Node.number_mem hm solid
  rw [h.numbers,mem_range'_1] at mem
  have := h.le
  omega

theorem nodup : n.numbers.Nodup := by
  rw [h.numbers]
  exact nodup_range'

theorem nodes_eq : p'.nodes = withNodes p.nodes p.next n.subtrees :=
  congrArg Program.nodes h.eq

theorem getElem?_nodes (pos : 0 < p.next) (hm : m ∈ n.subtrees) (solid : m.isLeaflet = false) :
    p'.nodes[m.id]? = some m := by
  have range := h.mem_numbers hm solid
  rw [h.nodes_eq]
  refine getElem?_withNodes hm range.1 fun m' hm' same => ?_
  exact Node.eq_of_id h.nodup hm' hm (Node.isLeaflet_of_id (by omega)) solid same

theorem getElem?_nodes_of_lt {k : Nat} (hk : k < p.next) : p'.nodes[k]? = p.nodes[k]? := by
  rw [h.nodes_eq,getElem?_withNodes_of_lt hk]

theorem placing_eq (pos : 0 < p.next) {place : Place} {e e' : Node × Place} (he : e ∈ n.placings place)
    (he' : e' ∈ n.placings place) (solid : e.1.isLeaflet = false) (same : e'.1.id = e.1.id) : e' = e := by
  have nodup : ((n.placings place).filter (!·.1.isLeaflet)).map (·.1.id) |>.Nodup := by
    have eq : ((n.placings place).filter (!·.1.isLeaflet)).map (·.1.id) =
        (n.preorder.filter (!·.isLeaflet)).map (·.id) := by
      rw [← Node.map_fst_placings place n,filter_map,map_map]
      rfl
    have sublist := ((n.preorder_sublist.filter (!·.isLeaflet)).map (·.id))
    rw [eq]
    exact sublist.nodup h.nodup
  have known : e.1 ∈ n.subtrees := by
    refine n.preorder_sublist.subset ?_
    rw [← Node.map_fst_placings place n]
    exact mem_map_of_mem he
  have range := h.mem_numbers known solid
  have solid' : e'.1.isLeaflet = false := Node.isLeaflet_of_id (by omega)
  refine inj_on_of_nodup_map nodup ?_ ?_ same
  · exact mem_filter.2 ⟨he',by simp [solid']⟩
  · exact mem_filter.2 ⟨he,by simp [solid]⟩

end Registered

/-- Numbers that have not been given are not in use. -/
structure Tidy (p : Program) : Prop where
  pos : 0 < p.next
  parents : ∀ k, p.next ≤ k → p.links.parents[k]? = none
  statements : ∀ k, p.next ≤ k → p.links.statements[k]? = none
  functions : ∀ k, p.next ≤ k → p.links.functions[k]? = none

/-- The tree `root` is a part of the program: its nodes are known by their numbers, which start at
`first`, and so is what surrounds them. -/
structure Holds (p : Program) (first : Nat) (root : Node) : Prop where
  pos : 0 < first
  range : ∀ m ∈ root.subtrees, m.isLeaflet = false → first ≤ m.id ∧ m.id < p.next
  nodup : root.numbers.Nodup
  depth : root.numbers.length ≤ p.next
  node : ∀ m ∈ root.subtrees, m.isLeaflet = false → p.nodes[m.id]? = some m
  parent : ∀ around m, Node.Path root around m → m.isLeaflet = false → p.links.parents[m.id]? = around.head?.map (·.id)
  statement : ∀ around m, Node.Path root around m → m.isExpression → m.isLeaflet = false →
    p.links.statements[m.id]? = (around.find? (·.isStatement)).map (·.id)
  function : ∀ around m, Node.Path root around m → m.isStatement → m.isLeaflet = false →
    p.links.functions[m.id]? = (around.find? (·.isFunction)).map (·.id)

theorem Place.parent_within (around : List Node) : (within around).parent = around.head?.map (·.id) := by
  cases around <;> rfl

theorem Place.statement_within (around : List Node) :
    (within around).statement = (around.find? (·.isStatement)).map (·.id) := by
  induction around with
  | nil => rfl
  | cons n _ ih =>
    simp only [within,inside,find?_cons,ih]
    cases n.isStatement <;> rfl

theorem Place.function_within (around : List Node) :
    (within around).function = (around.find? (·.isFunction)).map (·.id) := by
  induction around with
  | nil => rfl
  | cons n _ ih =>
    simp only [within,inside,find?_cons,ih]
    cases n.isFunction <;> rfl

theorem Registered.getElem?_recorded {α : Type} {around : List Node}
    (h : Registered p n p') (pos : 0 < p.next) (path : Node.Path n around m) (solid : m.isLeaflet = false)
    (val : Node × Place → Option α) {t : Table α} (empty : t[m.id]? = none) :
    ((n.placings {}).foldl (fun t e => Links.put t e.1.id (val e)) t)[m.id]? = val (m,Place.within around) := by
  rw [Links.getElem?_foldl_put (v := val (m,Place.within around)) ?_ ⟨_,path.mem_placings,rfl⟩,empty,Option.or_none]
  intro e he same
  rw [h.placing_eq pos path.mem_placings he solid same]

theorem holds_of_recordAll {q : Program} (tidy : Tidy p) (h : Registered p n p')
    (next : q.next = p'.next) (nodes : q.nodes = p'.nodes)
    (recorded : Links.recordAll {} n p.links = .ok q.links) : Holds q p.next n := by
  have eq := Links.recordAll_eq_ok recorded
  rw [Links.foldl_record] at eq
  have fresh {m : Node} (hm : m ∈ n.subtrees) (solid : m.isLeaflet = false) : p.next ≤ m.id :=
    (h.mem_numbers hm solid).1
  constructor
  · exact tidy.pos
  · intro m hm solid
    rw [next]
    exact h.mem_numbers hm solid
  · exact h.nodup
  · rw [h.numbers,length_range']
    omega
  · intro m hm solid
    rw [nodes]
    exact h.getElem?_nodes tidy.pos hm solid
  · intro around m path solid
    rw [eq,← Place.parent_within]
    exact h.getElem?_recorded tidy.pos path solid (fun e => e.2.parent)
      (tidy.parents _ (fresh path.mem_subtrees solid))
  · intro around m path expression solid
    have := h.getElem?_recorded tidy.pos path solid
      (fun e => if e.1.isExpression then e.2.statement else none)
      (tidy.statements _ (fresh path.mem_subtrees solid))
    rw [if_pos expression] at this
    rw [eq,← Place.statement_within]
    exact this
  · intro around m path statement solid
    have := h.getElem?_recorded tidy.pos path solid
      (fun e => if e.1.isStatement then e.2.function else none)
      (tidy.functions _ (fresh path.mem_subtrees solid))
    rw [if_pos statement] at this
    rw [eq,← Place.function_within]
    exact this

theorem chain_of_path {p : Program} {root m : Node} {around : List Node}
    (parents : ∀ {around m}, Node.Path root around m → m.isLeaflet = false → p.links.parents[m.id]? = around.head?.map (·.id))
    (nodes : ∀ {m}, m ∈ root.subtrees → m.isLeaflet = false → p.node m.id = m) (path : Node.Path root around m)
    (solid : m.isLeaflet = false) {fuel : Nat} (enough : around.length ≤ fuel) : p.chain fuel m.id = around := by
  induction path generalizing fuel with
  | root =>
    cases fuel with
    | zero => rfl
    | succ => rw [Program.chain,parents .root solid,head?_nil,Option.map_none]
  | child outer hc ih =>
    cases fuel with
    | zero => exact absurd enough (by simp)
    | succ =>
      have solid' := Node.isLeaflet_of_child hc
      rw [Program.chain,parents (.child outer hc) solid,head?_cons,Option.map_some]
      rw [length_cons] at enough
      exact congrArg₂ List.cons (nodes outer.mem_subtrees solid') (ih solid' (by omega))

namespace Holds

variable {p : Program} {first : Nat} {root : Node} (h : Holds p first root)
include h

variable {around : List Node} {m : Node}

theorem node_eq (hm : m ∈ root.subtrees) (solid : m.isLeaflet = false) : p.node m.id = m := by
  rw [Program.node_eq_getD,h.node m hm solid,Option.getD_some]

theorem ancestors_eq (path : Node.Path root around m) (solid : m.isLeaflet = false) : p.ancestors m = around := by
  have length := path.length_le
  have depth := h.depth
  exact chain_of_path (h.parent _ _) h.node_eq path solid (by omega)

theorem parent?_eq (path : Node.Path root (n :: around) m) (solid : m.isLeaflet = false) : p.parent? m = some n := by
  cases path with
  | child outer hc =>
    rw [Program.parent?,h.parent _ _ (.child outer hc) solid,head?_cons,Option.map_some,Option.map_some,
      h.node_eq outer.mem_subtrees (Node.isLeaflet_of_child hc)]

theorem path_unique {around' : List Node} {m' : Node} (path : Node.Path root around m)
    (path' : Node.Path root around' m') (solid : m.isLeaflet = false) (same : m'.id = m.id)
    (solid' : m'.isLeaflet = false) : m' = m ∧ around' = around := by
  have eq := Node.eq_of_id h.nodup path'.mem_subtrees path.mem_subtrees solid' solid same
  subst eq
  rw [← h.ancestors_eq path solid,← h.ancestors_eq path' solid]
  exact ⟨rfl,rfl⟩

end Holds

end Confidential
