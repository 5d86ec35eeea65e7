import Confidential.Proofs.Roles

/-!
Numbering the nodes of a tree.
-/

namespace Confidential.Node

open List

theorem take_getD_drop {α : Type} {l : List α} {m : Nat} (h : m < l.length) (d : α) :
    l.take m ++ l.getD m d :: l.drop (m + 1) = l := by
  rw [getD_eq_getElem?_getD,getElem?_eq_getElem h,Option.getD_some,← drop_eq_getElem_cons h,take_append_drop]

theorem take_getD {α : Type} {l : List α} {m : Nat} (h : l.length = m + 1) (d : α) :
    l.take m ++ [l.getD m d] = l := by
  have := take_getD_drop (l := l) (m := m) (by omega) d
  rwa [drop_eq_nil_of_le (by omega)] at this

theorem take_take_drop {α : Type} (l : List α) (a b : Nat) : l.take a ++ (l.drop a).take b = l.take (a + b) :=
  take_add.symm

variable {ns ps : List Node} {n : Node}

variable {k k' : Nat} {ns' : List Node}

theorem parts_withParts (h : ps.length = n.parts.length) : (n.withParts ps).parts = ps := by
  cases n with
  | functionType _ as _ cs =>
    cases as <;> cases cs <;>
      simp only [parts,withParts,length_append,Option.getD_some,Option.getD_none,Option.map_some,
        Option.map_none,length_nil,append_nil,nil_append,take_zero,drop_zero,Nat.zero_add,
        take_take_drop,take_append_drop] at h ⊢
    all_goals exact take_of_length_le (by omega)
  | function _ _ as bs cs =>
    cases ps with
    | nil => simp [parts] at h
    | cons x q =>
      have h : q.length = (as.getD []).length + bs.length + cs.length + 1 := by
        simp [parts] at h
        omega
      cases as <;> simp only [parts,withParts,drop_one,tail_cons,cons_append,Option.map_some,
        Option.map_none,Option.getD_some,Option.getD_none,length_nil,nil_append,drop_zero,Nat.zero_add,
        take_take_drop] at h ⊢
      all_goals exact congrArg (x :: ·) (take_getD h _)
  | variablesStatement => exact take_getD (by simpa [parts] using h) _
  | catchClause _ _ as =>
    cases ps with
    | nil => simp [parts] at h
    | cons x q =>
      have h : q.length = as.length + 1 := by simpa [parts] using h
      exact congrArg (x :: ·) (take_getD h _)
  | tryCall _ _ as _ bs =>
    cases ps with
    | nil => simp [parts] at h
    | cons x q =>
      have h : q.length = as.length + (bs.length + 1) := by simpa [parts] using h
      have h : as.length < q.length := by omega
      exact congrArg (x :: ·) (take_getD_drop h _)
  | modifier _ _ as _ bs =>
    cases ps with
    | nil => simp [parts] at h
    | cons x q =>
      have h : q.length = as.length + bs.length + 1 := by
        simp [parts] at h
        omega
      simp only [withParts,parts,drop_one,tail_cons,cons_append,take_take_drop]
      exact congrArg (x :: ·) (take_getD h _)
  | contract =>
    cases ps with
    | nil => simp [parts] at h
    | cons x =>
      simp only [withParts,parts,drop_one,tail_cons,cons_append,take_take_drop]
      exact congrArg (x :: ·) (take_append_drop _ _)
  | interface =>
    cases ps with
    | nil => simp [parts] at h
    | cons x => exact congrArg (x :: ·) (take_append_drop _ _)
  | source =>
    simp only [withParts,parts,take_take_drop]
    exact take_getD (by simpa [parts,Nat.add_assoc] using h) _
  | _ =>
    simp only [parts,withParts,length_cons,length_nil] at h ⊢
    all_goals first
      | exact (length_eq_zero_iff.1 h).symm
      | (obtain ⟨a,rfl⟩ := length_eq_one_iff.1 h; rfl)
      | (obtain ⟨a,b,rfl⟩ := length_eq_two.1 h; rfl)
      | (obtain ⟨a,b,c,rfl⟩ := length_eq_three.1 h; rfl)
      | (obtain ⟨a,b,c,d,rfl⟩ := length_eq_four.1 h; rfl)
      | exact take_getD_drop (m := 0) (by omega) _

theorem role_withParts (n : Node) (ps : List Node) : (n.withParts ps).role = n.role := by
  cases n <;> rfl

theorem isLeaflet_withParts (n : Node) (ps : List Node) : (n.withParts ps).isLeaflet = n.isLeaflet := by
  cases n <;> rfl

theorem isLeaflet_withInfo (i : Info) (n : Node) : (n.withInfo i).isLeaflet = n.isLeaflet := by
  cases n <;> rfl

theorem isOmitted_of_id (h : 0 < n.id) : n.isOmitted = false := by
  cases n <;> first | rfl | exact absurd h (Nat.lt_irrefl 0)

theorem keepsPlaces_withParts (h : ps.map role = n.parts.map role) :
    (n.withParts ps).keepsPlaces = n.keepsPlaces := by
  have length : ps.length = n.parts.length := by simpa using congrArg List.length h
  cases n with
  | name | create =>
    obtain ⟨a',rfl⟩ := length_eq_one_iff.1 length
    simp_all [parts,withParts,keepsPlaces]
  | variableStatement | whileLoop | doWhileLoop =>
    obtain ⟨a',b',rfl⟩ := length_eq_two.1 length
    simp_all [parts,withParts,keepsPlaces]
  | mapping | branch =>
    obtain ⟨a',b',c',rfl⟩ := length_eq_three.1 length
    simp_all [parts,withParts,keepsPlaces]
  | forLoop =>
    obtain ⟨a',b',c',d',rfl⟩ := length_eq_four.1 length
    simp_all [parts,withParts,keepsPlaces]
  | _ => rfl

@[induction_eliminator]
theorem induction_on_parts {P : Node → Prop} (step : ∀ n, (∀ c ∈ n.parts, P c) → P n) (n : Node) : P n :=
  step n fun c _ => induction_on_parts step c
termination_by sizeOf n
decreasing_by exact sizeOf_lt_part (by assumption)

theorem numbered_eq (n : Node) (k : Nat) : n.numbered k = if n.isLeaflet || n.id ≠ 0 then (n,k)
      else
        let r := n.parts.mapM numbered (k + 1)
        ((n.withParts r.1).withInfo { n.info with id := k },r.2) := by
  rw [numbered]
  split
  · rfl
  · simp only [mapM_subtype,unattach_attach]
    rfl

def numbers (n : Node) : List Nat :=
  (n.subtrees.filter (!·.isLeaflet)).map (·.id)

theorem numbers_eq (n : Node) :
    n.numbers = (if n.isLeaflet then [] else [n.id]) ++ n.parts.flatMap numbers := by
  unfold numbers
  rw [subtrees_eq,filter_cons,filter_flatMap]
  cases n.isLeaflet <;> simp [map_flatMap]

/-- The number of a node does not matter for its place in a tree. -/
structure Renumbered (n n' : Node) : Prop where
  role : n'.role = n.role
  isProper : n'.isProper = n.isProper

/-- What numbering does to a list of trees: the numbers are those from `k` up to `k'`. -/
structure NumberedFrom (k k' : Nat) (ns ns' : List Node) : Prop where
  roles : ns'.map role = ns.map role
  nodes : List.Forall₂ Renumbered (ns.flatMap subtrees) (ns'.flatMap subtrees)
  le : k ≤ k'
  numbers : ns'.flatMap numbers = List.range' k (k' - k)

theorem numberedFrom_cons {k'' : Nat} {n' : Node} (h : NumberedFrom k k' [n] [n']) (hs : NumberedFrom k' k'' ns ns') :
    NumberedFrom k k'' (n :: ns) (n' :: ns') where
  roles := by
    have first : n'.role = n.role := by simpa using h.roles
    rw [map_cons,map_cons,first,hs.roles]
  nodes := by
    have first : Forall₂ Renumbered n.subtrees n'.subtrees := by simpa using h.nodes
    rw [flatMap_cons,flatMap_cons]
    exact rel_append first hs.nodes
  le := h.le.trans hs.le
  numbers := by
    have first : n'.numbers = List.range' k (k' - k) := by simpa using h.numbers
    obtain ⟨a,rfl⟩ := Nat.exists_eq_add_of_le h.le
    obtain ⟨b,rfl⟩ := Nat.exists_eq_add_of_le hs.le
    rw [flatMap_cons,first,hs.numbers,Nat.add_sub_cancel_left,Nat.add_sub_cancel_left,
      Nat.add_assoc,Nat.add_sub_cancel_left,range'_append_1]

theorem mapM_numbered (h : ∀ n ∈ ns, ∀ k, NumberedFrom k (n.numbered k).2 [n] [(n.numbered k).1])
    (k : Nat) : NumberedFrom k (ns.mapM numbered k).2 ns (ns.mapM numbered k).1 := by
  induction ns generalizing k with
  | nil => exact ⟨rfl,.nil,Nat.le_refl k,by simp [mapM_nil,pure,StateT.pure]⟩
  | cons n _ ih =>
    rw [forall_mem_cons] at h
    have first := h.1 k
    have rest := ih h.2 (n.numbered k).2
    rw [mapM_cons]
    exact numberedFrom_cons first rest

theorem numberedFrom_withParts (leaflet : n.isLeaflet = false) (hps : NumberedFrom (k + 1) k' n.parts ps) :
    NumberedFrom k k' [n] [(n.withParts ps).withInfo { n.info with id := k }] := by
  have length : ps.length = n.parts.length := by simpa using congrArg List.length hps.roles
  have parts : ((n.withParts ps).withInfo { n.info with id := k }).parts = ps := by
    rw [parts_withInfo,parts_withParts length]
  have role : ((n.withParts ps).withInfo { n.info with id := k }).role = n.role := by
    rw [role_withInfo,role_withParts]
  have solid : (n.withParts ps).isLeaflet = false := by rw [isLeaflet_withParts,leaflet]
  have hk := hps.le
  refine ⟨by rw [map_singleton,map_singleton,role],?_,by omega,?_⟩
  · rw [flatMap_singleton,flatMap_singleton,subtrees_eq n,subtrees_eq,parts]
    refine .cons ⟨role,?_⟩ hps.nodes
    have same (q : Role → Bool) : ps.all (fun c => q c.role) = n.parts.all (fun c => q c.role) := by
      have all : (ps.map Node.role).all q = (n.parts.map Node.role).all q := by rw [hps.roles]
      rw [all_map,all_map] at all
      exact all
    rw [isProper,isProper,parts,role,same,keepsPlaces_withInfo,keepsPlaces_withParts hps.roles,info_withInfo solid]
    rfl
  · obtain ⟨a,rfl⟩ := Nat.exists_eq_add_of_le hk
    rw [flatMap_singleton,numbers_eq,parts,hps.numbers,isLeaflet_withInfo,solid,id_withInfo solid,
      Nat.add_sub_cancel_left,Nat.add_assoc,Nat.add_sub_cancel_left,Nat.add_comm 1 a,range'_succ]
    rfl

theorem numberedFrom_numbered (h : n.Unnumbered) (k : Nat) :
    NumberedFrom k (n.numbered k).2 [n] [(n.numbered k).1] := by
  induction n generalizing k with
  | step n ih =>
    have hid : n.id = 0 := h n self_mem
    rw [numbered_eq]
    cases leaflet : n.isLeaflet with
    | true =>
      rw [Bool.true_or,if_pos rfl]
      refine ⟨rfl,forall₂_same.2 fun _ _ => ⟨rfl,rfl⟩,Nat.le_refl k,?_⟩
      simp [numbers_eq,leaflet,parts_eq_nil leaflet]
    | false =>
      rw [Bool.false_or,if_neg (by simpa using hid)]
      exact numberedFrom_withParts leaflet (mapM_numbered (fun c hc k => ih c hc (h.part hc) k) (k + 1))

theorem forall_of_renumbered (h : Forall₂ Renumbered ns ns') {P : Role → Bool → Prop}
    (all : ∀ n ∈ ns, P n.role n.isProper) : ∀ n ∈ ns', P n.role n.isProper := by
  induction h with
  | nil => simp
  | cons first _ ih =>
    rw [forall_mem_cons] at all
    rw [forall_mem_cons,first.role,first.isProper]
    exact ⟨all.1,ih all.2⟩

def Only (Q : Nat → Prop) (n : Node) : Prop :=
  ∀ m ∈ n.subtrees, Q m.id

section Only

variable {k : Nat} {P : Node → Prop} {Q : Nat → Prop}

theorem only_iff : n.Only Q ↔ Q n.id ∧ ∀ c ∈ n.parts, c.Only Q := by
  unfold Only
  rw [subtrees_eq,forall_mem_cons,forall_mem_flatMap]

theorem Only.part {c : Node} (h : n.Only Q) (hc : c ∈ n.parts) : c.Only Q :=
  (only_iff.1 h).2 c hc

theorem forall_mapM_numbered (le : ∀ c ∈ ns, ∀ j, j ≤ (c.numbered j).2)
    (each : ∀ c ∈ ns, ∀ j, k ≤ j → (c.numbered j).2 ≤ (ns.mapM numbered k).2 → P (c.numbered j).1) :
    k ≤ (ns.mapM numbered k).2 ∧ (ns.mapM numbered k).1.length = ns.length ∧ ∀ c ∈ (ns.mapM numbered k).1, P c := by
  induction ns generalizing k with
  | nil => simp [mapM_nil,pure,StateT.pure]
  | cons _ _ ih =>
    rw [forall_mem_cons] at le each
    rw [mapM_cons] at each ⊢
    have first := le.1 k
    obtain ⟨upto,length,rest⟩ := ih le.2 fun c' hc j hj => each.2 c' hc j (first.trans hj)
    exact ⟨first.trans upto,congrArg (· + 1) length,forall_mem_cons.2 ⟨each.1 k (Nat.le_refl k) upto,rest⟩⟩

theorem le_numbered (n : Node) (k : Nat) : k ≤ (n.numbered k).2 := by
  induction n generalizing k with
  | step _ ih =>
    rw [numbered_eq]
    split
    · exact Nat.le_refl k
    · exact Nat.le_of_succ_le (forall_mapM_numbered (P := fun _ => True) ih fun _ _ _ _ _ => trivial).1

theorem forall_parts_numbered (each : ∀ c ∈ n.parts, P c)
    (step : ∀ c ∈ n.parts, ∀ j, k < j → (c.numbered j).2 ≤ (n.numbered k).2 → P (c.numbered j).1) :
    ∀ c ∈ (n.numbered k).1.parts, P c := by
  rw [numbered_eq] at step ⊢
  split
  · exact each
  next new =>
    rw [if_neg new] at step
    obtain ⟨-,length,below⟩ := forall_mapM_numbered (k := k + 1) (fun c _ => le_numbered c) step
    rw [parts_withInfo,parts_withParts length]
    exact below

theorem isLeaflet_numbered (n : Node) (k : Nat) : (n.numbered k).1.isLeaflet = n.isLeaflet := by
  rw [numbered_eq]
  split
  · rfl
  · rw [isLeaflet_withInfo,isLeaflet_withParts]

theorem id_numbered (solid : n.isLeaflet = false) (new : n.id = 0) : (n.numbered k).1.id = k := by
  rw [numbered_eq,if_neg (by simp [solid,new])]
  dsimp only
  rw [id_withInfo (by rw [isLeaflet_withParts,solid])]

/-- The nodes without a number get numbers from `k` on. -/
theorem only_numbered (h : n.Only Q) (new : ∀ j, k ≤ j → j < (n.numbered k).2 → Q j) : (n.numbered k).1.Only Q := by
  induction n generalizing k with
  | step n ih =>
    refine only_iff.2 ⟨?_,forall_parts_numbered (fun c hc => h.part hc) fun c hc j hj upto => ?_⟩
    · by_cases old : n.isLeaflet || n.id ≠ 0
      · rw [numbered_eq,if_pos old]
        exact (only_iff.1 h).1
      · simp only [Bool.or_eq_true,decide_eq_true_eq,not_or,Bool.not_eq_true,not_not] at old
        rw [id_numbered old.1 old.2]
        refine new k (Nat.le_refl k) ?_
        rw [numbered_eq,if_neg (by simp [old])]
        exact (forall_mapM_numbered (P := fun _ => True) (fun c _ => le_numbered c) fun _ _ _ _ _ => trivial).1
    · exact ih c hc (h.part hc) fun i hi lt => new i (by omega) (lt.trans_le upto)

end Only

theorem withParts_withParts (h : ps.length = n.parts.length) (qs : List Node) :
    (n.withParts ps).withParts qs = n.withParts qs := by
  cases n with
  | functionType _ as _ cs =>
    cases as <;> cases cs <;> simp only [parts,Option.getD_some,Option.getD_none,length_append,length_nil] at h <;>
      simp (disch := omega) only [withParts,Option.map_some,Option.map_none,Option.getD_some,Option.getD_none,length_nil,
        length_take,length_drop,Nat.min_eq_left]
  | function _ _ as =>
    cases as <;> simp only [parts,Option.getD_some,Option.getD_none,length_append,length_cons,length_nil] at h <;>
      simp (disch := omega) only [withParts,Option.map_some,Option.map_none,Option.getD_some,Option.getD_none,length_nil,
        length_take,length_drop,Nat.min_eq_left]
  | variablesStatement | catchClause | tryCall | modifier | contract | interface | source =>
    simp only [parts,length_append,length_cons,length_nil] at h
    simp (disch := omega) only [withParts,length_take,length_drop,Nat.min_eq_left]
  | _ => rfl

theorem withParts_withInfo (n : Node) (i : Info) (ps : List Node) :
    (n.withInfo i).withParts ps = (n.withParts ps).withInfo i := by
  cases n <;> rfl

theorem withInfo_withInfo (n : Node) (i j : Info) : (n.withInfo i).withInfo j = n.withInfo j := by
  cases n <;> rfl

def shape (n : Node) : Node :=
  (n.withParts (n.parts.attach.map fun ⟨c,_⟩ => c.shape)).withInfo {}
termination_by sizeOf n
decreasing_by exact sizeOf_lt_part (by assumption)

theorem shape_eq (n : Node) : n.shape = (n.withParts (n.parts.map shape)).withInfo {} := by
  rw [shape]
  simp

theorem parts_shape (n : Node) : n.shape.parts = n.parts.map shape := by
  rw [shape_eq,parts_withInfo,parts_withParts (length_map _)]

end Confidential.Node
