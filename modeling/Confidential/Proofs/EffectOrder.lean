import Confidential.Proofs.TransitiveEffects

/-!
What functions do to the state, whatever order contracts and functions stand in.
-/

namespace Confidential

open List Node Pass

def Node.outline (n : Node) : Nat × Bool × Bool × Bool :=
  (n.id,n.isStorage,n.isOmitted,n.isBare)

/-- The programs have the same functions and give the same answers about places. -/
structure Alike (p p' : Program) : Prop where
  next : p'.next = p.next
  routines : p'.routines.Perm p.routines
  access : ∀ n, p'.access n = p.access n
  isLeftValue : ∀ n, p'.isLeftValue n = p.isLeftValue n
  target : ∀ n, (p'.target n).map outline = (p.target n).map outline
  isState : p'.isState = p.isState
  isMapping : p'.isMapping = p.isMapping

namespace Alike

variable {p p' q q' : Program}

variable {m n : Node}

theorem symm (h : Alike p p') : Alike p' p where
  next := h.next.symm
  routines := h.routines.symm
  access n := (h.access n).symm
  isLeftValue n := (h.isLeftValue n).symm
  target n := (h.target n).symm
  isState := h.isState.symm
  isMapping := h.isMapping.symm

theorem of_effectsOnly (h : Alike p p') (left : EffectsOnly p q) (right : EffectsOnly p' q') : Alike q q' where
  next := by rw [right.next,left.next,h.next]
  routines := by
    rw [right.routines,left.routines]
    exact h.routines
  access n := by rw [right.access,left.access,h.access]
  isLeftValue n := by rw [right.isLeftValue,left.isLeftValue,h.isLeftValue]
  target n := by rw [right.target,left.target,h.target]
  isState := by rw [right.isState,left.isState,h.isState]
  isMapping := by rw [right.isMapping,left.isMapping,h.isMapping]

theorem target_eq_ok (h : Alike p p') {t : Node} (target : p.target n = .ok t) :
    ∃ t', p'.target n = .ok t' ∧ t'.outline = t.outline := by
  have same := h.target n
  rw [target] at same
  cases found : p'.target n with
  | error =>
    rw [found] at same
    cases same
  | ok t' =>
    rw [found] at same
    exact ⟨t',rfl,Except.ok.inj same⟩

theorem performs (h : Alike p p') (e : Effect) (n : Node) (a : Access) : p'.Performs e n a ↔ p.Performs e n a := by
  have stored : (∃ t, p'.target n = .ok t ∧ t.isStorage) ↔ ∃ t, p.target n = .ok t ∧ t.isStorage := by
    constructor
    · rintro ⟨t,target,storage⟩
      obtain ⟨t',target',same⟩ := h.symm.target_eq_ok target
      exact ⟨t',target',(congrArg (·.2.1) same).trans storage⟩
    · rintro ⟨t,target,storage⟩
      obtain ⟨t',target',same⟩ := h.target_eq_ok target
      exact ⟨t',target',(congrArg (·.2.1) same).trans storage⟩
  cases e <;> simp only [Program.Performs,h.access,h.isLeftValue,stored]

theorem settled (h : Alike p p') {F : Family} (settled : Settled p F n) : Settled p' F n where
  part := settled.part
  call callee called t target e a ha state := by
    obtain ⟨t',target',same⟩ := h.symm.target_eq_ok target
    have number : t'.id = t.id := congrArg (·.1) same
    rw [h.isState] at state
    exact settled.call callee called t' target' e a (number ▸ ha) state
  solid := settled.solid
  walkable := settled.walkable
  callable callee called := by
    obtain ⟨t,⟨target,known,solid⟩,plain⟩ := settled.callable callee called
    obtain ⟨t',target',same⟩ := h.target_eq_ok target
    have number : t'.id = t.id := congrArg (·.1) same
    refine ⟨t',⟨target',(congrArg (·.2.2.1) same).trans known,(congrArg (·.2.2.2) same).trans solid⟩,?_⟩
    rw [h.isState,h.isMapping,number]
    exact plain

theorem contains (h : Alike p p') : p'.Contains m ↔ p.Contains m :=
  exists_congr fun _ => and_congr_left fun _ => h.routines.mem_iff

theorem examines (h : Alike p p') : p'.Examines m ↔ p.Examines m :=
  exists_congr fun _ => and_congr_left fun _ => h.routines.mem_iff

end Alike

/-- The programs are alike, and the same accesses are recorded for the nodes with the numbers `K`. -/
structure Copies (K : Nat → Prop) (p q : Program) : Prop extends Alike p q where
  accesses : ∀ k, K k → ∀ e, q.accesses e k = p.accesses e k

def Follows {α : Type} (K : Nat → Prop) (x : Pass α) : Prop :=
  ∀ p q a p', Copies K p q → Runs x p a p' → ∃ q', Runs x q a q' ∧ Copies K p' q'

section Copying

variable {α β : Type} {K : Nat → Prop} {p q p' q' : Program}

theorem Copies.record {k : Nat} (h : Copies K p q) (hk : K k) (e : Effect) (as : List Access) :
    Copies K (p.record e k as) (q.record e k as) where
  toAlike := h.of_effectsOnly (.record p e k as) (.record q e k as)
  accesses j hj e' := by rw [Program.accesses_record,Program.accesses_record,h.accesses k hk,h.accesses j hj]

theorem Copies.forget (h : Copies K p q) (k : Nat) : Copies K (p.forget k) (q.forget k) where
  toAlike := h.of_effectsOnly (.forget p k) (.forget q k)
  accesses j hj e' := by rw [Program.accesses_forget,Program.accesses_forget,h.accesses j hj]

namespace Follows

theorem pure {a : α} : Follows K (pure a) := by
  intro p q b p' copies run
  obtain ⟨rfl,rfl⟩ := runs_pure.1 run
  exact ⟨q,runs_pure.2 ⟨rfl,rfl⟩,copies⟩

theorem bind {x : Pass α} {f : α → Pass β} (h : Follows K x) (step : ∀ a, Follows K (f a)) : Follows K (x >>= f) := by
  intro p q b p' copies run
  obtain ⟨a,r,first,rest⟩ := runs_bind.1 run
  obtain ⟨s,first',copies⟩ := h p q a r copies first
  obtain ⟨q',rest',copies⟩ := step a r s b p' copies rest
  exact ⟨q',runs_bind.2 ⟨a,s,first',rest'⟩,copies⟩

theorem forM {f : α → Pass Unit} {as : List α} (step : ∀ a ∈ as, Follows K (f a)) : Follows K (as.forM f) := by
  induction as with
  | nil => exact pure
  | cons _ _ ih =>
    rw [forall_mem_cons] at step
    exact step.1.bind fun _ => ih step.2

variable {n : Node}

theorem access : Follows K (ask fun p => p.access n) := by
  intro p q a p' copies run
  obtain ⟨known,rfl⟩ := runs_ask.1 run
  exact ⟨q,runs_ask.2 ⟨(copies.access n).trans known,rfl⟩,copies⟩

theorem addModified (hn : K n.id) (as : List Access) : Follows K (addModified n as) := by
  intro p q u p' copies run
  obtain rfl := runs_addModified.1 run
  exact ⟨_,runs_addModified.2 rfl,copies.record hn .modified as⟩

theorem clearEffects : Follows K (clearEffects n) := by
  intro p q u p' copies run
  obtain ⟨solid,rfl⟩ := runs_clearEffects.1 run
  exact ⟨_,runs_clearEffects.2 ⟨solid,rfl⟩,copies.forget n.id⟩

theorem inheritEffects {c : Node} (hn : K n.id) (hc : K c.id) : Follows K (inheritEffects n c) := by
  intro p q u p' copies run
  obtain ⟨solid,rfl⟩ := runs_inherit.1 run
  refine ⟨_,runs_inherit.2 ⟨solid,rfl⟩,?_⟩
  rw [copies.accesses c.id hc,copies.accesses c.id hc]
  exact (copies.record hn .modified _).record hn .read _

theorem markAssigned {left : Node} (hn : K n.id) : Follows K (markAssigned n left) := by
  induction left with
  | step left ih =>
    by_cases tuple : ∃ i es, left = .tuple i es
    · obtain ⟨i,es,rfl⟩ := tuple
      rw [markAssigned_tuple]
      exact .forM fun e he => ih e he
    · have place : ∀ i es, left = .tuple i es → False := fun i es eq => tuple ⟨i,es,eq⟩
      intro p q u p' copies run
      obtain ⟨a,known,new,rfl⟩ := (runs_markAssigned_place place).1 run
      refine ⟨_,(runs_markAssigned_place place).2 ⟨a,?_,?_,rfl⟩,copies.record hn .modified _⟩
      · rw [copies.access,known]
      · rw [copies.accesses n.id hn]
        exact new

theorem noteRead (hn : K n.id) : Follows K (noteRead n) := by
  intro p q u p' copies run
  obtain ⟨t,target,rest⟩ := runs_noteRead_iff.1 run
  obtain ⟨t',target',same⟩ := copies.target_eq_ok target
  have storage : t'.isStorage = t.isStorage := congrArg (·.2.1) same
  rw [← copies.isLeftValue,← storage] at rest
  split at rest
  next stored =>
    obtain ⟨a,known,rfl⟩ := rest
    refine ⟨_,runs_noteRead_iff.2 ⟨t',target',?_⟩,copies.record hn .read _⟩
    rw [if_pos stored]
    exact ⟨a,(copies.access n).trans known,rfl⟩
  next idle =>
    obtain rfl := rest
    refine ⟨q,runs_noteRead_iff.2 ⟨t',target',?_⟩,copies⟩
    rw [if_neg idle]

theorem noteOwn (hn : K n.id) : Follows K (noteOwn n) := by
  unfold Pass.noteOwn
  split
  · exact markAssigned hn
  · split
    · exact noteRead hn
    · exact pure

theorem directEffects (inside : ∀ k ∈ n.numbers, K k) : Follows K (directEffects n) := by
  induction n with
  | step n ih =>
    intro p q u p' copies run
    have number {m : Node} (hm : m ∈ n.subtrees) (solid : m.isLeaflet = false) : K m.id :=
      inside m.id (number_mem hm solid)
    have hn : K n.id := number self_mem (isLeaflet_of_direct run)
    revert p q u p'
    change Follows K (Pass.directEffects n)
    cases closed : n.isSealed with
    | true =>
      cases var : n.isVariable with
      | true =>
        rw [direct_variable var]
        exact .bind access fun a => addModified hn [a]
      | false =>
        rw [direct_parameter (by simpa [isSealed,var] using closed)]
        exact pure
    | false =>
      have part (c : Node) (hc : c ∈ n.children) : Follows K (examinePart n c) := by
        intro p q u p' copies run
        have hc := part_of_child hc
        have inner (k : Nat) (hk : k ∈ c.numbers) : K k := by
          obtain ⟨m,hm,rfl⟩ := mem_map.1 hk
          obtain ⟨hm,solid⟩ := mem_filter.1 hm
          exact number (mem_subtrees.2 (.inr ⟨c,hc,hm⟩)) (by simpa using solid)
        obtain ⟨_,r,first,-⟩ := runs_bind.1 run
        have own : K c.id := number (mem_subtrees.2 (.inr ⟨c,hc,self_mem⟩))
          (isLeaflet_of_direct first)
        exact Follows.bind (ih c hc inner) (fun _ => inheritEffects hn own) p q u p' copies run
      rw [directEffects_eq closed]
      refine .bind clearEffects fun _ => ?_
      dsimp only
      split
      · intro p q u p' copies run
        exact absurd run runs_throw_bind
      · exact .bind (.forM part) fun _ => noteOwn hn

end Follows

variable {fs : List Node}

theorem runs_of_forM (untouched : Untouched p fs) (run : Runs (fs.forM directEffects) p () p') :
    ∀ f ∈ fs, ∃ q q', EffectsOnly p q ∧ Untouched q [f] ∧ Runs (directEffects f) q () q' := by
  induction fs generalizing p with
  | nil => simp
  | cons f _ ih =>
    obtain ⟨q,first,rest⟩ := runs_forM_cons.1 run
    have alone : Untouched p [f] := untouched.sub (by simp)
    have here := examined_of_runs alone first
    refine forall_mem_cons.2 ⟨⟨p,q,refl p,alone,first⟩,fun g hg => ?_⟩
    obtain ⟨r,r',only,rest⟩ := ih (untouched_after untouched here) rest g hg
    exact ⟨r,r',Trans.trans here.only only,rest⟩

theorem ends_forM {start : Program} (only : EffectsOnly start p) (untouched : Untouched p fs)
    (each : ∀ f ∈ fs, ∀ q, EffectsOnly start q → Untouched q [f] → ∃ q', Runs (directEffects f) q () q') :
    ∃ p', Runs (fs.forM directEffects) p () p' := by
  induction fs generalizing p with
  | nil => exact ⟨p,runs_forM_nil.2 rfl⟩
  | cons f _ ih =>
    rw [forall_mem_cons] at each
    have alone : Untouched p [f] := untouched.sub (by simp)
    obtain ⟨q,first⟩ := each.1 p only alone
    have here := examined_of_runs alone first
    obtain ⟨p',rest⟩ := ih (Trans.trans only here.only) (untouched_after untouched here) each.2
    exact ⟨p',runs_forM_cons.2 ⟨q,first,rest⟩⟩

end Copying

section Order

variable {p p' q q' r' : Program}

theorem Alike.ends_direct (h : Alike p p') (prepared : Prepared p) (prepared' : Prepared p')
    (run : Runs (p.routines.forM directEffects) p () q) : ∃ q', Runs (p'.routines.forM directEffects) p' () q' := by
  refine ends_forM (refl p') prepared'.untouched fun f hf s' only' alone' => ?_
  obtain ⟨s,t,only,alone,first⟩ := runs_of_forM prepared.untouched run f (h.routines.mem_iff.1 hf)
  have copies : Copies (· ∈ f.numbers) s s' := by
    refine ⟨h.of_effectsOnly only only',fun k hk e => ?_⟩
    rw [alone.silent k (by simpa using hk),alone'.silent k (by simpa using hk)]
  obtain ⟨t',first',-⟩ := Follows.directEffects (fun _ hk => hk) s s' () t copies first
  exact ⟨t',first'⟩

theorem Alike.below_examined (h : Alike p p') (prepared' : Prepared p') (analysed : Analysed p q)
    (examined : ExaminedAll p'.routines p' r') : Below p' q.recorded r' := by
  refine ⟨examined.only,fun e k a ha => ?_⟩
  by_cases looked : ∃ f ∈ p'.routines, ∃ m, f.Examines m ∧ m.id = k
  · obtain ⟨f,hf,m,hm,rfl⟩ := looked
    obtain ⟨m',hm',done⟩ := (examined.mem f hf m hm e a).1 ha
    have inside : p.Examines m := h.examines.1 ⟨f,hf,hm⟩
    have inside' : p.Examines m' := h.examines.1 ⟨f,hf,hm.trans hm'⟩
    exact analysed.outwards inside.contains hm'.contains (analysed.own e m' a inside' ((h.performs e m' a).1 done))
  · rw [examined.other k (fun f hf m hm same => looked ⟨f,hf,m,hm,same⟩) e,prepared'.silent] at ha
    cases ha

theorem ends_effectsRounds {F : Family} {start : Program}
    (settled : ∀ m, start.Contains m → m.isParameter = false → Settled start F m) (fuel : Nat) (below : Below start F p) :
    Ends (effectsRounds fuel) p fun _ => Below start F := by
  induction fuel generalizing p with
  | zero => exact .pure below
  | succ _ ih =>
    have round : Ends (p.routines.mapM indirectEffects) p fun _ => Below start F := by
      refine .mapM_of_forall (fun f hf p' below' => ends_indirect (fun m hm => ?_) below') below
      exact settled m ⟨f,below.only.routines ▸ hf,hm⟩
    obtain ⟨bs,r,run,below⟩ := round
    have first : Runs effectsRound p (bs.any id) r := runs_effectsRound.2 ⟨bs,run,rfl⟩
    have ended : Ends effectsRound p fun _ => Below start F := ⟨_,r,first,below⟩
    rw [effectsRounds]
    refine ended.bind fun changed r below => ?_
    split
    · exact ih below
    · exact .pure below

theorem Alike.ends_findEffects (h : Alike p p') (prepared : Prepared p) (prepared' : Prepared p')
    (run : Runs findEffects p () q) : ∃ q', Runs findEffects p' () q' ∧ Below p' q.recorded q' := by
  have analysed := prepared.analysed run
  obtain ⟨r,direct,-⟩ := runs_findEffects.1 run
  obtain ⟨r',direct'⟩ := h.ends_direct prepared prepared' direct
  have below := h.below_examined prepared' analysed (examinedAll_of_runs prepared'.untouched direct')
  have settled (m : Node) (hm : p'.Contains m) (opened : m.isParameter = false) : Settled p' q.recorded m :=
    h.settled (analysed.settled m (h.contains.1 hm) opened)
  obtain ⟨_,q',rounds,below⟩ := ends_effectsRounds settled (roundsBound r') below
  exact ⟨q',runs_findEffects.2 ⟨r',direct',rounds⟩,below⟩

theorem Alike.accesses_iff (h : Alike p p') (prepared : Prepared p) (prepared' : Prepared p')
    (run : Runs findEffects p () q) :
    ∃ q', Runs findEffects p' () q' ∧ ∀ e k a, a ∈ q'.accesses e k ↔ a ∈ q.accesses e k := by
  obtain ⟨q',run',below⟩ := h.ends_findEffects prepared prepared' run
  obtain ⟨s,again,below'⟩ := h.symm.ends_findEffects prepared' prepared run'
  have same : s = q := (Prod.mk.inj (again.symm.trans run)).2
  exact ⟨q',run',fun e k a => ⟨below.mem e k a,same ▸ below'.mem e k a⟩⟩

end Order

theorem Role.notMem_of_below (r s : Role) (h : r ∈ s.below) (outside : s ∉ [.contract,.source]) :
    r ∉ [.contract,.source] := by
  revert r
  revert outside
  cases s <;> decide

namespace Node

inductive Shuffled : Node → Node → Prop where
  | same (n : Node) : Shuffled n n
  | contract (i : Info) (a : Node) {us vs : List Node} (head tail : List Node) (perm : us.Perm vs) :
      Shuffled (.contract i a us head tail) (.contract i a vs head tail)

/-- The same node, or a contract or a source with its units in another order. -/
inductive Rearranged : Node → Node → Prop where
  | unit {n m : Node} (h : Shuffled n m) : Rearranged n m
  | source (i : Info) {us vs ws : List Node} (head : List Node) (single : Node) (each : List.Forall₂ Shuffled us vs)
      (perm : vs.Perm ws) : Rearranged (.source i us head single) (.source i ws head single)

variable {m n : Node}

theorem Rearranged.eq (h : Rearranged n m) (role : n.role ∉ [.contract,.source]) : m = n := by
  cases h with
  | unit h =>
    cases h with
    | same => rfl
    | contract => simp [Node.role] at role
  | source => simp [Node.role] at role

theorem Rearranged.info (h : Rearranged n m) : m.info = n.info := by
  cases h with
  | unit h => cases h <;> rfl
  | source => rfl

theorem Rearranged.outline (h : Rearranged n m) : m.outline = n.outline := by
  cases h with
  | unit h => cases h <;> rfl
  | source => rfl

theorem Rearranged.isStateVariable (h : Rearranged n m) : m.isStateVariable = n.isStateVariable := by
  cases h with
  | unit h => cases h <;> rfl
  | source => rfl

theorem Rearranged.declaredType (h : Rearranged n m) : m.declaredType = n.declaredType := by
  cases h with
  | unit h => cases h <;> rfl
  | source => rfl

theorem Rearranged.isAssigned {ns ms : List Node} (h : Forall₂ Rearranged ns ms) :
    Program.isAssigned n ms = Program.isAssigned n ns := by
  induction h generalizing n with
  | nil => rfl
  | cons first _ ih =>
    cases first with
    | unit h =>
      cases h with
      | same =>
        unfold Program.isAssigned
        split <;> simp only [ih]
      | contract => rfl
    | source => rfl

theorem Shuffled.routines_perm (h : Shuffled n m) : m.routines.Perm n.routines := by
  cases h with
  | same => exact .refl _
  | contract _ _ _ _ perm =>
    refine (routines_perm _).trans (Perm.trans ?_ (routines_perm _).symm)
    exact perm.symm.filter isRoutine

theorem Shuffled.isContract_eq (h : Shuffled n m) : m.isContract = n.isContract := by
  cases h <;> rfl

end Node

theorem routines_perm_of_forall₂ {us vs : List Node} (h : Forall₂ Shuffled us vs) :
    ((vs.filter isContract).flatMap routines).Perm ((us.filter isContract).flatMap routines) := by
  induction h with
  | nil => exact .refl _
  | @cons u v us vs first _ ih =>
    rw [filter_cons,filter_cons,first.isContract_eq]
    split
    · exact first.routines_perm.append ih
    · exact ih

/-- The program has the units of its contracts and of its source in another order. -/
structure Reordered (p p' : Program) : Prop where
  frame : p' = { p with nodes := p'.nodes }
  nodes : ∀ k : Nat, Option.Rel Rearranged p.nodes[k]? p'.nodes[k]?

namespace Reordered

variable {p p' : Program} (h : Reordered p p')
include h

theorem node (k : Nat) : Rearranged (p.node k) (p'.node k) := by
  have rel := h.nodes k
  rw [Program.node_eq_getD,Program.node_eq_getD]
  generalize p.nodes[k]? = found at rel
  generalize p'.nodes[k]? = found' at rel
  cases rel with
  | none => exact .unit (.same _)
  | some rel => exact rel

theorem next : p'.next = p.next := by
  rw [h.frame]

theorem links : p'.links = p.links := by
  rw [h.frame]

theorem chain (fuel k : Nat) : Forall₂ Rearranged (p.chain fuel k) (p'.chain fuel k) := by
  induction fuel generalizing k with
  | zero => exact .nil
  | succ _ ih =>
    rw [Program.chain,Program.chain,h.links]
    split
    next j _ => exact .cons (h.node j) (ih j)
    next => exact .nil

theorem target (n : Node) : (p'.target n).map outline = (p.target n).map outline := by
  unfold Program.target
  rw [h.links]
  split
  next k _ => exact congrArg Except.ok (h.node k).outline
  next => rfl

theorem accessOf_target (n key via : Node) :
    (p'.target n >>= (Program.accessOf · key via)) = (p.target n >>= (Program.accessOf · key via)) := by
  have same := h.target n
  cases ht : p.target n with
  | error =>
    cases ht' : p'.target n with
    | error =>
      rw [ht,ht'] at same
      cases same
      rfl
    | ok =>
      rw [ht,ht'] at same
      cases same
  | ok t =>
    cases ht' : p'.target n with
    | error =>
      rw [ht,ht'] at same
      cases same
    | ok t' =>
      rw [ht,ht'] at same
      have outline := Except.ok.inj same
      change Program.accessOf t' key via = Program.accessOf t key via
      rw [Program.accessOf,show t'.isStorage = t.isStorage from congrArg (·.2.1) outline,
        show t'.id = t.id from congrArg (·.1) outline,Program.accessOf]

theorem access (n : Node) : p'.access n = p.access n := by
  have code (m : Node) : p'.code m = p.code m := by
    rw [h.frame]
    rfl
  unfold Program.access
  split
  · rfl
  · exact h.accessOf_target ..
  · exact h.accessOf_target ..
  · split
    · exact h.accessOf_target ..
    · rw [code]
  · rfl

theorem routines : p'.routines.Perm p.routines := by
  have root : p'.root = p.root := by rw [h.frame]
  have tree : Rearranged p.tree p'.tree := by
    rw [Program.tree,Program.tree,root]
    exact h.node p.root
  unfold Program.routines Program.contracts
  generalize p.tree = n at tree
  generalize p'.tree = n' at tree
  cases tree with
  | unit shuffled =>
    cases shuffled with
    | same | contract => exact .refl _
  | source _ _ _ each perm =>
    exact ((perm.symm.filter isContract).flatMap_right Node.routines).trans (routines_perm_of_forall₂ each)

theorem accessTarget (a : Access) : Rearranged (p.accessTarget a) (p'.accessTarget a) :=
  h.node a.target

theorem alike : Alike p p' where
  next := h.next
  routines := h.routines
  access := h.access
  isLeftValue n := by
    rw [Program.isLeftValue,Program.ancestors,h.next]
    exact Rearranged.isAssigned (h.chain p.next n.id)
  target := h.target
  isState := funext fun a => (h.accessTarget a).isStateVariable
  isMapping := funext fun a => congrArg isMapping (h.accessTarget a).declaredType

theorem prepared (roles : ∀ f ∈ p.routines, ∀ m ∈ f.subtrees, m.role ∉ [.contract,.source]) (prepared : Prepared p) :
    Prepared p' where
  pos := h.next ▸ prepared.pos
  nodup := (h.routines.flatMap_right numbers).nodup_iff.2 prepared.nodup
  range k hk := h.next ▸ prepared.range k ((h.routines.flatMap_right numbers).mem_iff.1 hk)
  node f hf m hm solid := by
    have hf := h.routines.mem_iff.1 hf
    have moved := h.node m.id
    rw [prepared.node f hf m hm solid] at moved
    exact moved.eq (roles f hf m hm)
  silent e k := by
    rw [← prepared.silent e k,h.frame]
    cases e <;> rfl
  numbered k n found := by
    have rel := h.nodes k
    rw [found] at rel
    cases known : p.nodes[k]? with
    | none =>
      rw [known] at rel
      cases rel
    | some m =>
      rw [known] at rel
      cases rel with
      | some moved => exact (congrArg Info.id moved.info).trans (prepared.numbered k m known)

end Reordered

theorem LinkedSource.roles_of_routines {p : Program} {first : Nat} {root : Node} (h : LinkedSource p first root) :
    ∀ f ∈ p.routines, ∀ m ∈ f.subtrees, m.role ∉ [.contract,.source] := by
  intro f hf
  have proper : f.Proper := fun m hm => h.proper m (mem_trans hm (h.mem_of_routine hf))
  obtain ⟨c,-,hf⟩ := mem_flatMap.1 hf
  have role := role_of_isFunction (isFunction_of_mem hf)
  refine proper.role_of_mem Role.notMem_of_below ?_
  rw [role]
  decide

/-- The accesses of functions to the state are exact. The rounds end by themselves; a function modifies and
reads what the definitions that it reaches through calls modify and read on their own, mappings in its own
definition only; and the order of contracts and functions does not matter. -/
theorem routine_accesses_exact {settings : Settings} {text : String} {p : Program}
    (linked : Runs (loadLinked text) { Globals.base with settings } () p) :
    (∀ q fuel, Runs (p.routines.forM directEffects) p () q → roundsBound q ≤ fuel →
      (effectsRounds fuel).run q = (effectsRounds (roundsBound q)).run q) ∧
    ∀ q, Runs findEffects p () q →
      (∀ f ∈ p.routines, ∀ e a, p.isState a = true →
        (a ∈ q.accesses e f.id ↔ ∃ d, Relation.ReflTransGen p.Calls f d ∧ p.Does e d a) ∧
        (p.isMapping a = true → (a ∈ q.accesses e f.id ↔ p.Does e f a))) ∧
      ∀ p', Reordered p p' → ∃ q', Runs findEffects p' () q' ∧
        ∀ e k a, a ∈ q'.accesses e k ↔ a ∈ q.accesses e k := by
  obtain ⟨root,source⟩ := linkedSource_of_runs linked
  have prepared := source.prepared
  refine ⟨fun q fuel direct enough => ?_,fun q run => ⟨fun f hf e a state => ⟨?_,fun mapping => ?_⟩,fun p' h => ?_⟩⟩
  · have examined := examinedAll_of_runs prepared.untouched direct
    have bound : 2 * p.next * p.next < roundsBound q := by
      unfold roundsBound
      rw [examined.only.next]
      omega
    exact run_effectsRounds_eq (prepared.bounded examined) prepared.lt (by omega) (by omega)
  · exact (prepared.analysed run).mem_accesses_iff prepared hf state
  · exact (prepared.analysed run).mem_accesses_mapping prepared hf state mapping
  · exact h.alike.accesses_iff prepared (h.prepared source.roles_of_routines prepared) run

def nestedCall : String :=
  "pragma cloak ^0.2.0;\ncontract C \x7b\n    uint x;\n    function g() public \x7b\n        x = 1;\n    \x7d\n" ++
    "    function f() public \x7b\n        g();\n    \x7d\n\x7d\n"

theorem nestedCall_accesses : ∃ p q, Runs (loadLinked nestedCall) { Globals.base with settings := {} } () p ∧
    Runs findEffects p () q ∧ p.routines.length = 2 ∧ ∀ f ∈ p.routines, ∃ a, p.isState a = true ∧
      a ∈ q.accesses .modified f.id ∧ ∃ d, Relation.ReflTransGen p.Calls f d ∧ p.Does .modified d a := by
  have chars : nestedCall = String.ofList _ := append_eq_ofList rfl rfl
  have evaluated : (loadLinked nestedCall).succeeds { Globals.base with settings := {} } (fun _ p =>
      findEffects.succeeds p fun _ q => p.routines.length == 2 &&
        p.routines.all fun f => (q.accesses .modified f.id).any p.isState) = true := by
    rw [loadLinked,load_eq chars]
    decide +kernel
  obtain ⟨_,p,loaded,evaluated⟩ := of_succeeds evaluated
  obtain ⟨_,q,found,evaluated⟩ := of_succeeds evaluated
  simp only [Bool.and_eq_true,beq_iff_eq,all_eq_true,any_eq_true] at evaluated
  refine ⟨p,q,loaded,found,evaluated.1,fun f hf => ?_⟩
  obtain ⟨a,ha,state⟩ := evaluated.2 f hf
  exact ⟨a,state,ha,(((routine_accesses_exact loaded).2 q found).1 f hf .modified a state).1.1 ha⟩

end Confidential
