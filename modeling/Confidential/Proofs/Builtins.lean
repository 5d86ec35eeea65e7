import Confidential.Proofs.NameTables

/-!
What every program can use. The names that are known from the start lead to nodes that stand alone.
-/

namespace Confidential

open List Node Pass
open Globals (base)

/-- The entry leads to a node that stands alone and is declared by this name. -/
structure Builtin (p : Program) (e : String × Nat) (d : Node) : Prop where
  name_pos : 0 < e.2
  name_lt : e.2 < p.next
  pos : 0 < d.id
  lt : d.id < p.next
  lists : Lists d e
  parent : p.links.parents[e.2]? = some d.id
  node : p.nodes[d.id]? = some d
  alone : p.links.parents[d.id]? = none

structure Extends (p p' : Program) : Prop where
  le : p.next ≤ p'.next
  nodes : ∀ k, k < p.next → p'.nodes[k]? = p.nodes[k]?
  parents : ∀ k, 0 < k → k < p.next → p'.links.parents[k]? = p.links.parents[k]?

/-- The definitions and names that every program can use are in place. -/
structure Equipped (p : Program) : Prop where
  tidy : Tidy p
  unnamed : ∀ k : Nat, p.links.names[k]? = none
  definitions : ∀ k ∈ p.globalDefinitions, k < p.next ∧ ∀ j ∈ (p.node k).numbers, 0 < j ∧ j < p.next
  names : ∀ e ∈ p.globalNames, ∃ d, Builtin p e d

variable {p p' : Program}

variable {n : Node} {q : Program}

theorem Extends.trans (h : Extends p q) (h' : Extends q p') : Extends p p' where
  le := h.le.trans h'.le
  nodes k hk := (h'.nodes k (hk.trans_le h.le)).trans (h.nodes k hk)
  parents k pos hk := (h'.parents k pos (hk.trans_le h.le)).trans (h.parents k pos hk)

theorem Extends.node {k : Nat} (h : Extends p p') (hk : k < p.next) : p'.node k = p.node k := by
  rw [Program.node_eq_getD,Program.node_eq_getD,h.nodes k hk]

theorem Builtin.extend {e : String × Nat} {d : Node} (h : Builtin p e d) (ext : Extends p p') : Builtin p' e d where
  name_pos := h.name_pos
  name_lt := h.name_lt.trans_le ext.le
  pos := h.pos
  lt := h.lt.trans_le ext.le
  lists := h.lists
  parent := (ext.parents _ h.name_pos h.name_lt).trans h.parent
  node := (ext.nodes _ h.lt).trans h.node
  alone := (ext.parents _ h.pos h.lt).trans h.alone

theorem Node.ownName_mem_parts {a : Node} (h : n.ownName? = some a) : a ∈ n.parts := by
  cases n <;> cases h <;> simp [parts]

theorem Node.ownName_mem_children {i : Info} {x : String} (h : n.ownName? = some (.identifier i x))
    (hr : n.role ≠ .clause) : .identifier i x ∈ n.children := by
  cases n with
  | catchClause => exact absurd rfl hr
  | _ => cases h <;> simp [children,visited,parts,isOmitted]

namespace Registered

variable {n : Node} (h : Registered p n p')
include h

theorem links_eq : p'.links = p.links := by
  rw [h.eq]

end Registered

theorem Registered.recorded (h : Registered p n p') (next : q.next = p'.next) (nodes : q.nodes = p'.nodes)
    (recorded : Links.recordAll {} n p.links = .ok q.links) : Extends p q ∧ q.links.names = p.links.names := by
  -- New nodes have new numbers.
  have other {k : Nat} (pos : 0 < k) (hk : k < p.next) : ∀ m ∈ n.preorder, m.id ≠ k := by
    rintro m hm rfl
    have range := h.mem_numbers (n.preorder_sublist.subset hm) (isLeaflet_of_id pos)
    omega
  refine ⟨⟨next ▸ h.le,fun k hk => ?_,fun k pos hk => (Links.recordAll_frame recorded (other pos hk)).1⟩,?_⟩
  · rw [nodes]
    exact h.getElem?_nodes_of_lt hk
  · rw [Links.recordAll_eq_ok recorded,Links.foldl_record]

/-- What the program that every source starts from has to say about its numbers. -/
theorem base_evaluated : 0 < base.next ∧ (∀ e ∈ base.links.parents.toList, e.1 < base.next) ∧
    (∀ e ∈ base.links.statements.toList, e.1 < base.next) ∧
    (∀ e ∈ base.links.functions.toList, e.1 < base.next) ∧
    base.links.names.toList = [] ∧
    (∀ k ∈ base.globalDefinitions, k < base.next ∧
      ∀ j ∈ (base.node k).numbers, 0 < j ∧ j < base.next) ∧
    ∀ e ∈ base.globalNames, 0 < e.2 ∧ e.2 < base.next ∧
      ∃ k ∈ base.links.parents[e.2]?, 0 < k ∧ k < base.next ∧ base.links.parents[k]? = none ∧
        ∃ d ∈ base.nodes[k]?, d.id = k ∧ d.isCalled e.1 ∧ d.nameId = e.2 := by
  decide +kernel

theorem none_of_toList {α : Type} {t : Table α} {bound k : Nat} (h : ∀ e ∈ t.toList, e.1 < bound)
    (le : bound ≤ k) : t[k]? = none := by
  cases found : t[k]? with
  | none => rfl
  | some a => exact absurd (h (k,a) (Std.TreeMap.mem_toList_iff_getElem?_eq_some.2 found)) (Nat.not_lt.2 le)

theorem equipped_base : Equipped base := by
  obtain ⟨pos,parents,statements,functions,names,definitions,builtins⟩ := base_evaluated
  have unnamed (k : Nat) : base.links.names[k]? = none :=
    none_of_toList (by simp [names]) (Nat.zero_le k)
  refine ⟨⟨pos,fun k => none_of_toList parents,fun k => none_of_toList statements,
    fun k => none_of_toList functions⟩,unnamed,definitions,fun e he => ?_⟩
  obtain ⟨name_pos,name_lt,k,parent,pos,lt,alone,d,known,rfl,called,number⟩ := builtins e he
  obtain ⟨i,named⟩ := isCalled_iff.1 called
  rw [nameId,named] at number
  exact ⟨d,name_pos,name_lt,pos,lt,⟨i,named,number⟩,parent,known,alone⟩

theorem equipped_settings (settings : Settings) : Equipped { base with settings } :=
  { equipped_base with
    tidy := { equipped_base.tidy with }
    names := fun e he => (equipped_base.names e he).imp fun _ hd => { hd with } }

end Confidential
