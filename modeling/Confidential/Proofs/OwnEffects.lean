import Confidential.Proofs.Places

/-!
What a tree does on its own.
-/

namespace Confidential

open List Node Pass

/-- What can be done to a value. -/
inductive Effect where
  | modified
  | read
deriving DecidableEq

namespace Access

variable {xs : List Access}

theorem mem_union {ys : List Access} {a : Access} : a ∈ union xs ys ↔ a ∈ xs ∨ a ∈ ys := by
  unfold union
  induction ys generalizing xs with
  | nil => simp
  | cons _ _ ih =>
    rw [foldl_cons,ih]
    split
    next known =>
      rw [contains_iff_mem] at known
      grind
    next => grind

theorem prefix_union (xs ys : List Access) : xs <+: union xs ys := by
  unfold union
  induction ys generalizing xs with
  | nil => exact prefix_rfl
  | cons y _ ih =>
    refine IsPrefix.trans ?_ (ih _)
    dsimp only
    split
    · exact prefix_rfl
    · exact prefix_append xs [y]

theorem nodup_union (h : xs.Nodup) (ys : List Access) : (union xs ys).Nodup := by
  unfold union
  induction ys generalizing xs with
  | nil => exact h
  | cons y _ ih =>
    refine ih ?_
    dsimp only
    split
    · exact h
    next new =>
      rw [contains_iff_mem] at new
      exact nodup_append.2 ⟨h,nodup_singleton y,by grind⟩

end Access

namespace Program

variable (p : Program)

def table : Effect → Table (List Access)
  | .modified => p.modified
  | .read => p.read

def accesses (e : Effect) (k : Nat) : List Access :=
  (p.table e).getD k []

def withTable (t : Table (List Access)) : Effect → Program
  | .modified => { p with modified := t }
  | .read => { p with read := t }

def record (e : Effect) (k : Nat) (as : List Access) : Program :=
  p.withTable ((p.table e).insert k (Access.union (p.accesses e k) as)) e

theorem accesses_record (e e' : Effect) (k j : Nat) (as : List Access) :
    (p.record e k as).accesses e' j = if e = e' ∧ k = j then Access.union (p.accesses e k) as else p.accesses e' j := by
  cases e <;> cases e' <;> simp [record,withTable,accesses,table,Std.TreeMap.getD_insert]

def forget (k : Nat) : Program :=
  { p with modified := p.modified.insert k [], read := p.read.insert k [] }

theorem accesses_forget (e : Effect) (k j : Nat) :
    (p.forget k).accesses e j = if k = j then [] else p.accesses e j := by
  cases e <;> simp [forget,accesses,table,Std.TreeMap.getD_insert]

end Program

def EffectsOnly (p p' : Program) : Prop :=
  p' = { p with modified := p'.modified, read := p'.read, output := p'.output }

namespace EffectsOnly

instance : Std.Refl EffectsOnly := ⟨fun _ => rfl⟩

instance : IsTrans Program EffectsOnly where
  trans p q r h h' := by
    unfold EffectsOnly at *
    rw [h',h]

theorem record (p : Program) (e : Effect) (k : Nat) (as : List Access) : EffectsOnly p (p.record e k as) := by
  cases e <;> rfl

theorem forget (p : Program) (k : Nat) : EffectsOnly p (p.forget k) :=
  rfl

variable {p p' : Program} (h : EffectsOnly p p')
include h

theorem next : p'.next = p.next := by
  rw [h]

theorem node (k : Nat) : p'.node k = p.node k := by
  rw [h]
  rfl

theorem target (n : Node) : p'.target n = p.target n := by
  rw [h]
  rfl

theorem access (n : Node) : p'.access n = p.access n := by
  rw [h]
  rfl

theorem chain (fuel k : Nat) : p'.chain fuel k = p.chain fuel k := by
  induction fuel generalizing k with
  | zero => rfl
  | succ _ ih =>
    have parents : p'.links.parents = p.links.parents := by rw [h]
    simp only [Program.chain,parents,ih,h.node]

theorem isLeftValue (n : Node) : p'.isLeftValue n = p.isLeftValue n := by
  rw [Program.isLeftValue,Program.ancestors,h.chain,h.next]
  rfl

theorem routines : p'.routines = p.routines := by
  rw [h]
  rfl

end EffectsOnly

namespace Node

/-- The node `m` is reached from `n` through children, without entering nodes that are closed. -/
inductive Within (closed : Node → Bool) : Node → Node → Prop where
  | self {n : Node} : Within closed n n
  | child {n c m : Node} : closed n = false → c ∈ n.children → Within closed c m → Within closed n m

variable {m n : Node} {closed : Node → Bool}

theorem Within.trans {a b c : Node} (h : Within closed a b) (h' : Within closed b c) : Within closed a c := by
  induction h with
  | self => exact h'
  | child op hc _ ih => exact .child op hc (ih h')

theorem Within.mem_subtrees (h : Within closed n m) : m ∈ n.subtrees := by
  induction h with
  | self => exact self_mem
  | child _ hc _ ih => exact Node.mem_subtrees.2 (.inr ⟨_,part_of_child hc,ih⟩)

theorem within_of_closed (h : closed n) : Within closed n m ↔ m = n := by
  constructor
  · intro inner
    cases inner with
    | self => rfl
    | child op => rw [h] at op; cases op
  · rintro rfl
    exact .self

theorem within_of_open (h : closed n = false) : Within closed n m ↔ m = n ∨ ∃ c ∈ n.children, Within closed c m := by
  constructor
  · intro inner
    cases inner with
    | self => exact .inl rfl
    | child _ hc inner => exact .inr ⟨_,hc,inner⟩
  · rintro (rfl | ⟨c,hc,inner⟩)
    · exact .self
    · exact .child h hc inner

def isSealed (n : Node) : Bool :=
  n.isVariable || n.isParameter

abbrev Examines : Node → Node → Prop :=
  Within isSealed

def assignees (n : Node) : List Node :=
  match n with
  | .tuple _ es => es.attach.flatMap fun ⟨e,_⟩ => e.assignees
  | n => [n]
termination_by sizeOf n

theorem assignees_tuple (i : Info) (es : List Node) : (Node.tuple i es).assignees = es.flatMap assignees := by
  rw [assignees]
  simp

theorem mem_of_assignee {t : Node} (h : t ∈ n.assignees) : t ∈ n.subtrees := by
  induction n with
  | step n ih =>
    by_cases tuple : ∃ i es, n = .tuple i es
    · obtain ⟨i,es,rfl⟩ := tuple
      rw [assignees_tuple] at h
      obtain ⟨e,he,ht⟩ := mem_flatMap.1 h
      exact mem_subtrees.2 (.inr ⟨e,he,ih e he ht⟩)
    · rw [assignees.eq_2 _ fun i es eq => tuple ⟨i,es,eq⟩,mem_singleton] at h
      exact mem_subtrees.2 (.inl h)

theorem isLeaflet_of_access {p : Program} {a : Access} (h : p.access n = .ok a) : n.isLeaflet = false := by
  cases n <;> first | rfl | cases h

def isReadable : Node → Bool
  | .name .. | .member .. | .index .. | .slice .. | .general _ .location | .general _ .primary => true
  | _ => false

end Node

/-- What is done at a node itself: an assignment stores values, the declaration of a local variable
makes it, and a place that is not assigned is read. -/
def Program.Performs (p : Program) : Effect → Node → Access → Prop
  | .modified, n, a =>
    n.isVariable ∧ p.access n = .ok a ∨
      ∃ i toCircuit left right op, n = .assign i toCircuit left right op ∧ ∃ t ∈ left.assignees, p.access t = .ok a
  | .read, n, a =>
    n.isReadable ∧ p.isLeftValue n = false ∧ (∃ t, p.target n = .ok t ∧ t.isStorage) ∧ p.access n = .ok a

variable {p : Program}

theorem EffectsOnly.performs {p' : Program} (h : EffectsOnly p p') (e : Effect) (n : Node) (a : Access) :
    p'.Performs e n a ↔ p.Performs e n a := by
  cases e <;> simp only [Program.Performs,h.access,h.target,h.isLeftValue]

/-- The accesses `new` are recorded for the node with number `k`, and nothing else changes. -/
structure Adds (k : Nat) (new : Effect → Access → Prop) (p p' : Program) : Prop where
  only : EffectsOnly p p'
  other : ∀ e j, k ≠ j → p'.accesses e j = p.accesses e j
  mem : ∀ e a, a ∈ p'.accesses e k ↔ a ∈ p.accesses e k ∨ new e a
  nodup : ∀ e, (p.accesses e k).Nodup → (p'.accesses e k).Nodup

namespace Adds

variable {k : Nat} {p q p' : Program} {new new' : Effect → Access → Prop}

theorem nothing : Adds k (fun _ _ => False) p p :=
  ⟨refl p,fun _ _ _ => rfl,by simp,fun _ h => h⟩

theorem record (p : Program) (e : Effect) (k : Nat) (as : List Access) :
    Adds k (fun e' a => e = e' ∧ a ∈ as) p (p.record e k as) where
  only := .record p e k as
  other e' j hj := by rw [Program.accesses_record,if_neg fun h => hj h.2]
  mem e' a := by
    rw [Program.accesses_record]
    split
    next same => simp [Access.mem_union,← same.1]
    next other => simp_all
  nodup e' h := by
    rw [Program.accesses_record]
    split
    next same => exact Access.nodup_union (same.1 ▸ h) as
    next => exact h

theorem trans (h : Adds k new p q) (h' : Adds k new' q p') : Adds k (fun e a => new e a ∨ new' e a) p p' where
  only := IsTrans.trans _ _ _ h.only h'.only
  other e j hj := (h'.other e j hj).trans (h.other e j hj)
  mem e a := by rw [h'.mem,h.mem,or_assoc]
  nodup e hn := h'.nodup e (h.nodup e hn)

theorem congr (h : Adds k new p p') (same : ∀ e a, new e a ↔ new' e a) : Adds k new' p p' :=
  { h with mem := fun e a => by rw [h.mem,same] }

end Adds

/-- What the first pass over the tree `n` has recorded in `p'`. -/
structure Examined (n : Node) (p p' : Program) : Prop where
  only : EffectsOnly p p'
  solid : ∀ m, n.Examines m → m.isLeaflet = false
  other : ∀ k, (∀ m, n.Examines m → m.id ≠ k) → ∀ e, p'.accesses e k = p.accesses e k
  mem : ∀ m, n.Examines m → ∀ e a, a ∈ p'.accesses e m.id ↔ ∃ m', m.Examines m' ∧ p.Performs e m' a
  nodup : ∀ m, n.Examines m → ∀ e, (p'.accesses e m.id).Nodup

/-- What the first pass over the trees `fs` has recorded in `p'`. -/
structure ExaminedAll (fs : List Node) (p p' : Program) : Prop where
  only : EffectsOnly p p'
  solid : ∀ f ∈ fs, ∀ m, f.Examines m → m.isLeaflet = false
  other : ∀ k, (∀ f ∈ fs, ∀ m, f.Examines m → m.id ≠ k) → ∀ e, p'.accesses e k = p.accesses e k
  mem : ∀ f ∈ fs, ∀ m, f.Examines m → ∀ e a, a ∈ p'.accesses e m.id ↔ ∃ m', m.Examines m' ∧ p.Performs e m' a
  nodup : ∀ f ∈ fs, ∀ m, f.Examines m → ∀ e, (p'.accesses e m.id).Nodup

/-- The nodes of the trees have numbers of their own, and nothing is recorded for them. -/
structure Untouched (p : Program) (ns : List Node) : Prop where
  nodup : (ns.flatMap numbers).Nodup
  pos : 0 ∉ ns.flatMap numbers
  silent : ∀ k ∈ ns.flatMap numbers, ∀ e, p.accesses e k = []

theorem Untouched.sub {ns ms : List Node} (h : Untouched p ns)
    (sub : (ms.flatMap numbers).Sublist (ns.flatMap numbers)) : Untouched p ms where
  nodup := sub.nodup h.nodup
  pos zero := h.pos (sub.subset zero)
  silent k hk := h.silent k (sub.subset hk)

theorem Node.numbers_children (n : Node) : (n.children.flatMap numbers).Sublist (n.parts.flatMap numbers) :=
  flatMap_sublist n.children_sublist fun _ _ => Sublist.refl _

theorem Untouched.children {n : Node} (h : Untouched p [n]) : Untouched p n.children := by
  refine h.sub ?_
  rw [flatMap_singleton,numbers_eq]
  exact n.numbers_children.trans (sublist_append_right _ _)

/-- What the first pass has recorded for a node after it has looked at some of its parts. -/
structure ExaminedParts (n : Node) (cs : List Node) (p p' : Program) : Prop where
  only : EffectsOnly p p'
  solid : ∀ c ∈ cs, ∀ m, c.Examines m → m.isLeaflet = false
  other : ∀ k, n.id ≠ k → (∀ c ∈ cs, ∀ m, c.Examines m → m.id ≠ k) → ∀ e, p'.accesses e k = p.accesses e k
  mem : ∀ c ∈ cs, ∀ m, c.Examines m → ∀ e a, a ∈ p'.accesses e m.id ↔ ∃ m', m.Examines m' ∧ p.Performs e m' a
  nodup : ∀ c ∈ cs, ∀ m, c.Examines m → ∀ e, (p'.accesses e m.id).Nodup
  own : ∀ e a, a ∈ p'.accesses e n.id ↔ a ∈ p.accesses e n.id ∨ ∃ c ∈ cs, ∃ m, c.Examines m ∧ p.Performs e m a
  nodup_own : ∀ e, (p.accesses e n.id).Nodup → (p'.accesses e n.id).Nodup

namespace Pass

variable {p p' : Program}

variable {as : List Access} {c left n stmt : Node} {u : Unit}

variable {fs : List Node}

theorem runs_addModified : Runs (addModified n as) p u p' ↔ p.record .modified n.id as = p' :=
  runs_modify

theorem runs_addRead : Runs (addRead n as) p u p' ↔ p.record .read n.id as = p' :=
  runs_modify

theorem runs_clearEffects :
    Runs (clearEffects n) p u p' ↔ (n.isBare || n.isLeaflet) = false ∧ p.forget n.id = p' := by
  unfold clearEffects
  dsimp only
  split
  next refused =>
    rw [refused,runs_bind]
    simp
  next fine =>
    rw [Bool.not_eq_true] at fine
    rw [fine,runs_modify]
    exact (and_iff_right rfl).symm

theorem runs_inherit : Runs (inheritEffects n c) p u p' ↔ c.isBare = false ∧
      (p.record .modified n.id (p.accesses .modified c.id)).record .read n.id (p.accesses .read c.id) = p' := by
  unfold inheritEffects
  simp only [runs_bind,runs_ask,runs_addModified,runs_addRead]
  cases bare : c.isBare with
  | true => simp [Program.modifiedBy,bare]
  | false =>
    simp only [Program.modifiedBy,Program.readBy,bare,Bool.false_eq_true,if_false,Except.ok.injEq,true_and]
    constructor
    · rintro ⟨_,_,⟨rfl,rfl⟩,_,_,rfl,_,_,⟨rfl,rfl⟩,rfl⟩
      rfl
    · rintro rfl
      exact ⟨_,_,⟨rfl,rfl⟩,(),_,rfl,_,_,⟨rfl,rfl⟩,rfl⟩

/-- Records that a place is read, if it is one where a value is kept. -/
def noteRead (n : Node) : Pass Unit := do
  let p ← get
  if !p.isLeftValue n && (← ofOutcome (p.target n)).isStorage then
    addRead n [← ask fun p => p.access n]

def noteOwn (n : Node) : Pass Unit := do
  match n with
  | .assign _ _ left _ _ => markAssigned n left
  | n => if n.isReadable then noteRead n

theorem noteOwn_eq (n : Node) : noteOwn n = match n with
    | .assign _ _ left _ _ => markAssigned n left
    | .name .. | .member .. | .index .. | .slice .. | .general _ .location | .general _ .primary => noteRead n
    | _ => return () := by
  cases n with
  | general _ c => cases c <;> rfl
  | _ => rfl

/-- Looks at a part, and takes over what is done there. -/
def examinePart (n c : Node) : Pass Unit := do
  directEffects c
  inheritEffects n c

theorem directEffects_eq (opened : n.isSealed = false) :
    directEffects n = (do
      clearEffects n
      if n.lacksParameters then throw .misused
      n.children.forM (examinePart n)
      noteOwn n) := by
  have attached : n.children.attach.forM (fun c => examinePart n c.1) = n.children.forM (examinePart n) := by
    conv => rhs; rw [← attach_map_subtype_val n.children]
    exact (forM_map ..).symm
  rw [directEffects.eq_def]
  split
  · cases opened
  · cases opened
  · rw [← attached,noteOwn_eq]
    rfl

theorem markAssigned_tuple (stmt : Node) (i : Info) (es : List Node) :
    markAssigned stmt (.tuple i es) = es.forM (markAssigned stmt) := by
  rw [markAssigned]
  conv => rhs; rw [← attach_map_subtype_val es]
  exact (forM_map ..).symm

theorem runs_markAssigned_place (place : ∀ i es, left = .tuple i es → False) :
    Runs (markAssigned stmt left) p u p' ↔ ∃ a, p.access left = .ok a ∧
      (p.accesses .modified stmt.id).contains a = false ∧ p.record .modified stmt.id [a] = p' := by
  rw [markAssigned.eq_2 _ _ place]
  simp only [runs_bind,runs_ask,runs_get]
  constructor
  · rintro ⟨a,_,⟨known,rfl⟩,_,_,⟨rfl,rfl⟩,run⟩
    split at run
    · obtain ⟨_,_,refused,_⟩ := runs_bind.1 run
      obtain ⟨_,_,_,thrown⟩ := runs_bind.1 refused
      exact absurd thrown runs_throw
    next new => exact ⟨a,known,Bool.eq_false_of_not_eq_true new,runs_addModified.1 run⟩
  · rintro ⟨a,known,new,rest⟩
    refine ⟨a,p,⟨known,rfl⟩,p,p,⟨rfl,rfl⟩,?_⟩
    rw [if_neg (by rw [Bool.not_eq_true]; exact new)]
    exact runs_addModified.2 rest

theorem runs_markAssigned (run : Runs (markAssigned stmt left) p u p') :
    Adds stmt.id (fun e a => e = .modified ∧ ∃ t ∈ left.assignees, p.access t = .ok a) p p' := by
  induction left generalizing p p' with
  | step left ih =>
    by_cases tuple : ∃ i es, left = .tuple i es
    · obtain ⟨i,es,rfl⟩ := tuple
      rw [markAssigned_tuple] at run
      rw [assignees_tuple]
      replace ih : ∀ e ∈ es, ∀ {p p' : Program}, Runs (markAssigned stmt e) p () p' →
          Adds stmt.id (fun f a => f = .modified ∧ ∃ t ∈ e.assignees, p.access t = .ok a) p p' := fun e he _ _ => ih e he
      induction es generalizing p with
      | nil =>
        rw [← runs_forM_nil.1 run]
        exact Adds.nothing.congr (by simp)
      | cons _ _ step =>
        rw [forall_mem_cons] at ih
        obtain ⟨q,first,rest⟩ := runs_forM_cons.1 run
        have here := ih.1 first
        refine (here.trans (step rest ih.2)).congr fun f a => ?_
        simp only [here.only.access,flatMap_cons,mem_append]
        grind
    · have place : ∀ i es, left = .tuple i es → False := fun i es eq => tuple ⟨i,es,eq⟩
      obtain ⟨a,known,-,rfl⟩ := (runs_markAssigned_place place).1 run
      refine (Adds.record p .modified stmt.id [a]).congr fun e b => ?_
      rw [assignees.eq_2 _ place]
      simp only [mem_singleton,exists_eq_left,known,Except.ok.injEq]
      exact and_congr eq_comm eq_comm

theorem runs_noteRead_iff : Runs (noteRead n) p u p' ↔ ∃ t, p.target n = .ok t ∧
    if (!p.isLeftValue n && t.isStorage) = true then ∃ a, p.access n = .ok a ∧ p.record .read n.id [a] = p' else p = p' := by
  unfold noteRead
  simp only [runs_bind,runs_get,runs_ofOutcome]
  constructor
  · rintro ⟨_,_,⟨rfl,rfl⟩,t,_,⟨target,rfl⟩,run⟩
    refine ⟨t,target,?_⟩
    split at run
    next stored =>
      obtain ⟨a,known,run⟩ := runs_ask_bind.1 run
      rw [if_pos stored]
      exact ⟨a,known,runs_addRead.1 run⟩
    next idle =>
      rw [if_neg idle]
      exact (runs_pure.1 run).2
  · rintro ⟨t,target,rest⟩
    refine ⟨p,p,⟨rfl,rfl⟩,t,p,⟨target,rfl⟩,?_⟩
    split at rest
    next stored =>
      obtain ⟨a,known,rest⟩ := rest
      rw [if_pos stored]
      exact runs_bind.2 ⟨a,p,runs_ask.2 ⟨known,rfl⟩,runs_addRead.2 rest⟩
    next idle =>
      rw [if_neg idle]
      exact runs_pure.2 ⟨rfl,rest⟩

theorem runs_noteRead (readable : n.isReadable) (run : Runs (noteRead n) p u p') :
    Adds n.id (fun e a => p.Performs e n a) p p' := by
  have plain : n.isVariable = false ∧ ∀ i c left right op, n ≠ .assign i c left right op := by
    cases n with
    | general _ c => cases c <;> simp [isVariable]
    | declaration => cases readable
    | _ => simp [isVariable,isReadable] at readable ⊢
  have void (a : Access) : ¬ p.Performs .modified n a := by
    rintro (⟨h,-⟩ | ⟨i,c,left,right,op,h,-⟩)
    · simp [plain.1] at h
    · exact plain.2 _ _ _ _ _ h
  obtain ⟨t,target,rest⟩ := runs_noteRead_iff.1 run
  split at rest
  next stored =>
    obtain ⟨a,known,rfl⟩ := rest
    refine (Adds.record p .read n.id [a]).congr fun e b => ?_
    rw [Bool.and_eq_true,Bool.not_eq_true'] at stored
    cases e with
    | modified => simp [void]
    | read =>
      simp only [Program.Performs,readable,stored.1,target,Except.ok.injEq,exists_eq_left',stored.2,known,
        mem_singleton,true_and]
      exact eq_comm
  next fresh =>
    obtain rfl := rest
    refine Adds.nothing.congr fun e b => ?_
    cases e with
    | modified => simp [void]
    | read =>
      simp only [Program.Performs,target,Except.ok.injEq,exists_eq_left']
      simp at fresh
      grind

theorem runs_noteOwn (opened : n.isSealed = false) (run : Runs (noteOwn n) p u p') :
    Adds n.id (fun e a => p.Performs e n a) p p' := by
  unfold noteOwn at run
  split at run
  next i c left right op =>
    refine (runs_markAssigned run).congr fun e a => ?_
    cases e with
    | modified => simp [Program.Performs,isVariable]
    | read => simp [Program.Performs,isReadable]
  next plain =>
    split at run
    next readable => exact runs_noteRead readable run
    next idle =>
      obtain ⟨-,rfl⟩ := runs_pure.1 run
      refine Adds.nothing.congr fun e a => ?_
      cases e with
      | modified =>
        simp only [Program.Performs,false_iff,not_or,not_and,not_exists]
        refine ⟨fun var => ?_,fun i c left right op eq => absurd eq (plain i c left right op)⟩
        simp [isSealed,var] at opened
      | read => simp [Program.Performs,idle]

theorem adds_inherit (run : Runs (inheritEffects n c) p u p') :
    Adds n.id (fun e a => a ∈ p.accesses e c.id) p p' := by
  obtain ⟨-,rfl⟩ := runs_inherit.1 run
  refine ((Adds.record p .modified n.id _).trans (Adds.record _ .read n.id _)).congr fun e a => ?_
  cases e <;> simp

theorem examinedParts_of_runs {cs : List Node} (apart : n.id ∉ cs.flatMap numbers) (untouched : Untouched p cs)
    (ih : ∀ c ∈ cs, ∀ p p', Untouched p [c] → Runs (directEffects c) p () p' → Examined c p p')
    (run : Runs (cs.forM (examinePart n)) p () p') : ExaminedParts n cs p p' := by
  induction cs generalizing p with
  | nil =>
    rw [← runs_forM_nil.1 run]
    exact ⟨refl p,by simp,fun _ _ _ _ => rfl,by simp,by simp,by simp,fun _ h => h⟩
  | cons c cs step =>
    obtain ⟨r,first,rest⟩ := runs_forM_cons.1 run
    obtain ⟨_,q,direct,inherit⟩ := runs_bind.1 first
    rw [forall_mem_cons] at ih
    rw [flatMap_cons,mem_append,not_or] at apart
    have nodup := untouched.nodup
    rw [flatMap_cons,nodup_append] at nodup
    have here := ih.1 p q (untouched.sub (by simp)) direct
    have added := adds_inherit inherit
    have only : EffectsOnly p r := Trans.trans here.only added.only
    have number {m : Node} (hm : c.Examines m) : m.id ∈ c.numbers := number_mem hm.mem_subtrees (here.solid m hm)
    -- Nodes outside of the first part are as they were.
    have outside {k : Nat} (hk : k ∉ c.numbers) (e : Effect) : q.accesses e k = p.accesses e k :=
      here.other k (fun m hm same => hk (same ▸ number hm)) e
    have untouched' : Untouched r cs := by
      have sub : Untouched p cs := untouched.sub (by simp)
      refine { sub with silent := fun k hk e => ?_ }
      have apart' : n.id ≠ k := fun same => apart.2 (same ▸ hk)
      rw [added.other e k apart',outside (fun mem => nodup.2.2 k mem k hk rfl),sub.silent k hk e]
    have after := step apart.2 untouched' ih.2 rest
    have kept {m : Node} (hm : c.Examines m) (e : Effect) : p'.accesses e m.id = q.accesses e m.id := by
      have apart' : n.id ≠ m.id := fun same => apart.1 (same ▸ number hm)
      rw [after.other m.id apart' (fun d hd m' hm' same => ?_) e,added.other e m.id apart']
      have mem := number_mem hm'.mem_subtrees (after.solid d hd m' hm')
      exact nodup.2.2 _ (number hm) _ (mem_flatMap.2 ⟨d,hd,mem⟩) same.symm
    refine ⟨Trans.trans only after.only,?_,fun k hk others e => ?_,?_,?_,fun e a => ?_,fun e hn => ?_⟩
    · exact forall_mem_cons.2 ⟨here.solid,after.solid⟩
    · rw [forall_mem_cons] at others
      rw [after.other k hk others.2,added.other e k hk,here.other k others.1]
    · refine forall_mem_cons.2 ⟨fun m hm e a => ?_,fun d hd m hm e a => ?_⟩
      · rw [kept hm,here.mem m hm]
      · simp only [after.mem d hd m hm,only.performs]
    · refine forall_mem_cons.2 ⟨fun m hm e => ?_,after.nodup⟩
      rw [kept hm]
      exact here.nodup m hm e
    · simp only [after.own,added.mem,outside apart.1,here.mem c .self,only.performs,exists_mem_cons_iff,or_assoc]
    · refine after.nodup_own e (added.nodup e ?_)
      rw [outside apart.1]
      exact hn

theorem runs_direct (opened : n.isSealed = false) (run : Runs (directEffects n) p u p') :
    n.isLeaflet = false ∧ ∃ q, Runs (n.children.forM (examinePart n)) (p.forget n.id) () q ∧ Runs (noteOwn n) q () p' := by
  rw [directEffects_eq opened] at run
  obtain ⟨_,_,cleared,run⟩ := runs_bind.1 run
  obtain ⟨solid,rfl⟩ := runs_clearEffects.1 cleared
  rw [Bool.or_eq_false_iff] at solid
  refine ⟨solid.2,?_⟩
  dsimp only at run
  split at run
  · exact absurd run runs_throw_bind
  · obtain ⟨_,q,parts,own⟩ := runs_bind.1 run
    exact ⟨q,parts,own⟩

theorem isLeaflet_of_direct (run : Runs (directEffects n) p u p') : n.isLeaflet = false := by
  cases closed : n.isSealed with
  | true => cases n <;> first | rfl | cases closed
  | false => exact (runs_direct closed run).1

theorem direct_parameter (h : n.isParameter) : directEffects n = pure () := by
  cases n with
  | declaration _ kind =>
    cases kind with
    | parameter => rw [directEffects]
    | _ => cases h
  | _ => cases h

theorem direct_variable (h : n.isVariable) :
    directEffects n = (do addModified n [← ask fun p => p.access n]) := by
  cases n with
  | declaration _ kind =>
    cases kind with
    | «variable» => rw [directEffects]
    | _ => cases h
  | _ => cases h

theorem examined_sealed (untouched : Untouched p [n]) (closed : n.isSealed)
    (run : Runs (directEffects n) p u p') : Examined n p p' := by
  have inside {m : Node} (h : n.Examines m) : m = n := (within_of_closed closed).1 h
  have solid := isLeaflet_of closed fun _ => rfl
  have silent (e : Effect) : p.accesses e n.id = [] := by
    refine untouched.silent n.id ?_ e
    rw [flatMap_singleton]
    exact number_mem self_mem solid
  have added : Adds n.id (p.Performs · n) p p' := by
    cases var : n.isVariable with
    | true =>
      rw [direct_variable var] at run
      obtain ⟨a,known,run⟩ := runs_ask_bind.1 run
      rw [← runs_addModified.1 run]
      refine (Adds.record p .modified n.id [a]).congr fun e b => ?_
      cases e with
      | modified =>
        simp only [Program.Performs,var,known,Except.ok.injEq,mem_singleton,true_and,eq_comm (a := b)]
        cases n <;> first | cases var | simp
      | read => cases n <;> first | cases var | simp [Program.Performs,isReadable]
    | false =>
      rw [direct_parameter (by simpa [isSealed,var] using closed)] at run
      obtain ⟨-,rfl⟩ := runs_pure.1 run
      refine Adds.nothing.congr fun e b => ?_
      cases n <;> first | cases closed | skip
      cases e <;> simp [Program.Performs,isReadable,var]
  refine ⟨added.only,fun m hm => inside hm ▸ solid,fun k hk e => added.other e k (hk n .self),?_,?_⟩
  · intro m hm e a
    rw [inside hm,added.mem,silent]
    simp [within_of_closed closed]
  · intro m hm e
    rw [inside hm]
    exact added.nodup e (silent e ▸ nodup_nil)

theorem examined_of_runs (untouched : Untouched p [n]) (run : Runs (directEffects n) p u p') : Examined n p p' := by
  induction n generalizing p p' with
  | step n ih =>
    cases closed : n.isSealed with
    | true => exact examined_sealed untouched closed run
    | false =>
      obtain ⟨solid,q,run,last⟩ := runs_direct closed run
      have nodup := untouched.nodup
      rw [flatMap_singleton,numbers_eq,solid,if_neg Bool.false_ne_true,nodup_append] at nodup
      have apart : n.id ∉ n.children.flatMap numbers := fun mem =>
        nodup.2.2 n.id (by simp) n.id (n.numbers_children.subset mem) rfl
      have forgotten {k : Nat} (hk : k ∈ n.children.flatMap numbers) (e : Effect) :
          (p.forget n.id).accesses e k = p.accesses e k := by
        rw [Program.accesses_forget,if_neg]
        rintro rfl
        exact apart hk
      have untouched' : Untouched (p.forget n.id) n.children :=
        { untouched.children with silent := fun k hk e => (forgotten hk e).trans (untouched.children.silent k hk e) }
      have parts := examinedParts_of_runs apart untouched'
        (fun c hc p p' h run => ih c (part_of_child hc) h run) run
      have own := runs_noteOwn closed last
      have only := Trans.trans (EffectsOnly.forget p n.id) parts.only
      have number {c m : Node} (hc : c ∈ n.children) (hm : c.Examines m) : n.id ≠ m.id := by
        intro same
        refine apart (mem_flatMap.2 ⟨c,hc,?_⟩)
        exact same ▸ number_mem hm.mem_subtrees (parts.solid c hc m hm)
      have each : ∀ m, n.Examines m → m = n ∨ ∃ c ∈ n.children, c.Examines m :=
        fun m => (within_of_open closed).1
      refine ⟨Trans.trans only own.only,fun m hm => ?_,fun k hk e => ?_,fun m hm e a => ?_,fun m hm e => ?_⟩
      · obtain rfl | ⟨c,hc,hm⟩ := each m hm
        · exact solid
        · exact parts.solid c hc m hm
      · have other : n.id ≠ k := hk n .self
        rw [own.other e k other,parts.other k other fun c hc m hm => hk m ((within_of_open closed).2 (.inr ⟨c,hc,hm⟩)),
          Program.accesses_forget,if_neg other]
      · obtain rfl | ⟨c,hc,hm⟩ := each m hm
        · simp only [own.mem,parts.own,Program.accesses_forget,if_true,not_mem_nil,false_or,only.performs,
            (EffectsOnly.forget p m.id).performs,within_of_open closed]
          grind
        · rw [own.other e m.id (number hc hm),parts.mem c hc m hm]
          simp only [(EffectsOnly.forget p n.id).performs]
      · obtain rfl | ⟨c,hc,hm⟩ := each m hm
        · refine own.nodup e (parts.nodup_own e ?_)
          rw [Program.accesses_forget,if_pos rfl]
          exact nodup_nil
        · rw [own.other e m.id (number hc hm)]
          exact parts.nodup c hc m hm e

theorem untouched_after {f : Node} (untouched : Untouched p (f :: fs)) (examined : Examined f p p') :
    Untouched p' fs := by
  have nodup := untouched.nodup
  rw [flatMap_cons,nodup_append] at nodup
  have rest : Untouched p fs := untouched.sub (by simp)
  refine { rest with silent := fun k hk e => ?_ }
  rw [examined.other k (fun m hm same => ?_),rest.silent k hk e]
  exact nodup.2.2 _ (number_mem hm.mem_subtrees (examined.solid m hm)) k hk same

theorem examinedAll_of_runs (untouched : Untouched p fs) (run : Runs (fs.forM directEffects) p () p') :
    ExaminedAll fs p p' := by
  induction fs generalizing p with
  | nil =>
    rw [← runs_forM_nil.1 run]
    exact ⟨refl p,by simp,fun _ _ _ => rfl,by simp,by simp⟩
  | cons f _ ih =>
    obtain ⟨q,first,rest⟩ := runs_forM_cons.1 run
    have nodup := untouched.nodup
    rw [flatMap_cons,nodup_append] at nodup
    have here := examined_of_runs (untouched.sub (by simp)) first
    have number {m : Node} (hm : f.Examines m) : m.id ∈ f.numbers := number_mem hm.mem_subtrees (here.solid m hm)
    have after := ih (untouched_after untouched here) rest
    have kept {m : Node} (hm : f.Examines m) (e : Effect) : p'.accesses e m.id = q.accesses e m.id := by
      refine after.other m.id (fun g hg m' hm' same => ?_) e
      have mem := number_mem hm'.mem_subtrees (after.solid g hg m' hm')
      exact nodup.2.2 _ (number hm) _ (mem_flatMap.2 ⟨g,hg,mem⟩) same.symm
    refine ⟨Trans.trans here.only after.only,forall_mem_cons.2 ⟨here.solid,after.solid⟩,
      fun k hk e => ?_,forall_mem_cons.2 ⟨fun m hm e a => ?_,fun g hg m hm e a => ?_⟩,
      forall_mem_cons.2 ⟨fun m hm e => ?_,after.nodup⟩⟩
    · rw [forall_mem_cons] at hk
      rw [after.other k hk.2,here.other k hk.1]
    · rw [kept hm,here.mem m hm]
    · simp only [after.mem g hg m hm,here.only.performs]
    · rw [kept hm]
      exact here.nodup m hm e

theorem effectsOnly_markAssigned : Keeps EffectsOnly (markAssigned stmt left) :=
  fun _ _ _ run => (runs_markAssigned run).only

theorem effectsOnly_inherit : Keeps EffectsOnly (inheritEffects n c) :=
  fun _ _ _ run => (adds_inherit run).only

theorem effectsOnly_noteOwn (opened : n.isSealed = false) : Keeps EffectsOnly (noteOwn n) :=
  fun _ _ _ run => (runs_noteOwn opened run).only

theorem effectsOnly_direct : Keeps EffectsOnly (directEffects n) := by
  induction n with
  | step n ih =>
    cases closed : n.isSealed with
    | true =>
      cases var : n.isVariable with
      | true =>
        rw [direct_variable var]
        exact .bind .ask fun _ p _ p' run => runs_addModified.1 run ▸ .record ..
      | false =>
        rw [direct_parameter (by simpa [isSealed,var] using closed)]
        exact .pure
    | false =>
      intro p u p' run
      obtain ⟨-,q,parts,own⟩ := runs_direct closed run
      have first : EffectsOnly (p.forget n.id) q := Keeps.forM (fun c hc => Keeps.bind
        (ih c (part_of_child hc)) fun _ => effectsOnly_inherit) _ _ _ parts
      exact Trans.trans (EffectsOnly.forget p n.id) (Trans.trans first (effectsOnly_noteOwn closed q u p' own))

end Pass

structure Program.Answers (p : Program) (n : Node) : Prop where
  read : n.isReadable = true → p.isLeftValue n = false → ∀ t, p.target n = .ok t → t.isStorage = true →
    ∃ a, p.access n = .ok a
  assigned : ∀ i toCircuit left right op, n = .assign i toCircuit left right op → ∀ t ∈ left.assignees, ∃ a, p.access t = .ok a

theorem EffectsOnly.answers {p' : Program} (h : EffectsOnly p p') {n : Node} (answers : p'.Answers n) : p.Answers n where
  read := by
    have read := answers.read
    rwa [h.isLeftValue,h.target,h.access] at read
  assigned i toCircuit left right op eq t ht := h.access t ▸ answers.assigned i toCircuit left right op eq t ht

namespace Pass

variable {p p' : Program}

variable {u : Unit}

theorem access_of_markAssigned {stmt left : Node} (run : Runs (markAssigned stmt left) p u p') :
    ∀ t ∈ left.assignees, ∃ a, p.access t = .ok a := by
  induction left generalizing p p' with
  | step left ih =>
    by_cases tuple : ∃ i es, left = .tuple i es
    · obtain ⟨i,es,rfl⟩ := tuple
      rw [markAssigned_tuple] at run
      rw [assignees_tuple]
      intro t ht
      obtain ⟨e,he,ht⟩ := mem_flatMap.1 ht
      obtain ⟨q,q',only,run⟩ := Keeps.runs_of_mem (fun _ _ => effectsOnly_markAssigned) run he
      exact only.access t ▸ ih e he run t ht
    · have place : ∀ i es, left = .tuple i es → False := fun i es eq => tuple ⟨i,es,eq⟩
      obtain ⟨a,known,-,-⟩ := (runs_markAssigned_place place).1 run
      rw [assignees.eq_2 _ place]
      exact forall_mem_singleton.2 ⟨a,known⟩

theorem answers_of_noteOwn {n : Node} (run : Runs (noteOwn n) p u p') : p.Answers n := by
  unfold noteOwn at run
  split at run
  next i c left right op =>
    refine ⟨fun readable => Bool.noConfusion readable,fun _ _ _ _ _ eq => ?_⟩
    cases eq
    exact access_of_markAssigned run
  next plain =>
    refine ⟨fun readable unassigned t target storage => ?_,fun _ _ _ _ _ eq => (plain _ _ _ _ _ eq).elim⟩
    rw [if_pos readable] at run
    obtain ⟨t',target',rest⟩ := runs_noteRead_iff.1 run
    cases target.symm.trans target'
    rw [if_pos (by simp [unassigned,storage])] at rest
    obtain ⟨a,known,-⟩ := rest
    exact ⟨a,known⟩

theorem answers_of_runs {n m : Node} (run : Runs (directEffects n) p u p') (hm : n.Examines m) : p.Answers m := by
  induction n generalizing p p' with
  | step n ih =>
    cases closed : n.isSealed with
    | true =>
      obtain rfl := (within_of_closed closed).1 hm
      refine ⟨fun readable => ?_,fun _ _ _ _ _ eq => ?_⟩
      · cases m <;> first | cases closed | cases readable
      · subst eq
        cases closed
    | false =>
      obtain ⟨-,q,parts,own⟩ := runs_direct closed run
      have each (c : Node) (_ : c ∈ n.children) : Keeps EffectsOnly (examinePart n c) :=
        Keeps.bind effectsOnly_direct fun _ => effectsOnly_inherit
      have cleared := EffectsOnly.forget p n.id
      obtain rfl | ⟨c,hc,hm⟩ := (within_of_open closed).1 hm
      · exact (Trans.trans cleared (Keeps.forM each _ _ _ parts)).answers (answers_of_noteOwn own)
      · obtain ⟨r,r',before,run⟩ := Keeps.runs_of_mem each parts hc
        obtain ⟨_,r'',run,-⟩ := runs_bind.1 run
        exact (Trans.trans cleared before).answers (ih c (part_of_child hc) run hm)

end Pass
end Confidential
