import Confidential.Proofs.OwnEffects

/-!
The effects of calls.
-/

namespace Confidential

open List Node Pass

/-- Recorded accesses are kept, and new ones are added behind them. -/
structure Grows (p p' : Program) : Prop where
  only : EffectsOnly p p'
  prefix_accesses : ∀ e k, p.accesses e k <+: p'.accesses e k
  nodup : ∀ e k, (p.accesses e k).Nodup → (p'.accesses e k).Nodup

namespace Grows

instance : Std.Refl Grows := ⟨fun p => ⟨refl p,fun _ _ => List.prefix_rfl,fun _ _ h => h⟩⟩

instance : IsTrans Program Grows where
  trans _ _ _ h h' := {
    only := Trans.trans h.only h'.only
    prefix_accesses := fun e k => (h.prefix_accesses e k).trans (h'.prefix_accesses e k)
    nodup := fun e k hn => h'.nodup e k (h.nodup e k hn) }

theorem record (p : Program) (e : Effect) (k : Nat) (as : List Access) : Grows p (p.record e k as) where
  only := .record p e k as
  prefix_accesses e' j := by
    rw [Program.accesses_record]
    split
    next same => exact same.1 ▸ same.2 ▸ Access.prefix_union _ _
    next => exact prefix_rfl
  nodup e' j h := by
    rw [Program.accesses_record]
    split
    next same => exact Access.nodup_union (same.1 ▸ same.2 ▸ h) as
    next => exact h

end Grows

namespace Node

abbrev Contains : Node → Node → Prop :=
  Within isParameter

theorem Within.contains {n m : Node} (h : n.Examines m) : n.Contains m := by
  induction h with
  | self => exact .self
  | child op hc _ ih => exact .child (Bool.or_eq_false_iff.1 op).2 hc ih

/-- The place that is called by its name, its index or as a member. -/
def called? : Node → Option Node
  | .call _ callee _ _ => if callee.isLocation then some callee else none
  | _ => none

theorem isParameter_of_called {n callee : Node} (h : n.called? = some callee) : n.isParameter = false := by
  cases n <;> first | rfl | cases h

end Node

namespace Program

def isState (p : Program) (a : Access) : Bool :=
  (p.accessTarget a).isStateVariable

def isMapping (p : Program) (a : Access) : Bool :=
  (p.accessTarget a).declaredType.isMapping

end Program

structure Program.Callable (p : Program) (callee t : Node) : Prop where
  target : p.target callee = .ok t
  known : t.isOmitted = false
  solid : t.isBare = false

variable {p p' : Program}

theorem EffectsOnly.accessTarget (h : EffectsOnly p p') (a : Access) : p'.accessTarget a = p.accessTarget a :=
  h.node a.target

theorem EffectsOnly.isState (h : EffectsOnly p p') : p'.isState = p.isState := by
  funext a
  rw [Program.isState,h.accessTarget,Program.isState]

theorem EffectsOnly.isMapping (h : EffectsOnly p p') : p'.isMapping = p.isMapping := by
  funext a
  rw [Program.isMapping,h.accessTarget,Program.isMapping]

namespace Pass

variable {p p' : Program}

variable {as : List Access} {callee n : Node}

variable {b : Bool} {c : Node}

theorem runs_stateAccesses {call : Node} {verb : String} {bs : List Access} :
    Runs (stateAccesses call callee verb as) p bs p' ↔
      (∀ a ∈ as, p.isState a → p.isMapping a = false) ∧ bs = as.filter p.isState ∧ p = p' := by
  have free : ((as.filter p.isState).any p.isMapping) ↔ ¬ ∀ a ∈ as, p.isState a → p.isMapping a = false := by
    simp only [any_eq_true,mem_filter,not_forall,Bool.not_eq_false,exists_prop,and_assoc]
  unfold stateAccesses
  simp only [runs_bind,runs_get]
  constructor
  · rintro ⟨_,_,⟨rfl,rfl⟩,run⟩
    split at run
    · simp only [runs_bind] at run
      obtain ⟨_,_,_,_,_,_,run⟩ := run
      split at run
      · exact absurd run runs_throw_bind
      · obtain ⟨_,_,_,thrown⟩ := runs_bind.1 run
        exact absurd thrown runs_throw
    next plain =>
      obtain ⟨rfl,rfl⟩ := runs_pure.1 run
      exact ⟨not_not.1 (free.not.1 plain),rfl,rfl⟩
  · rintro ⟨plain,rfl,rfl⟩
    refine ⟨p,p,⟨rfl,rfl⟩,?_⟩
    split
    next touched => exact absurd plain (free.1 touched)
    next => exact runs_pure.2 ⟨rfl,rfl⟩

/-- Takes over what the called function does to the state. -/
def followCall (n : Node) : Pass Unit := do
  match n.called? with
  | some callee =>
    let f ← ask fun p => p.target callee
    if f.isOmitted then throw .absent
    addRead n (← stateAccesses n f "read" (← ask fun p => p.readBy f))
    addModified n (← stateAccesses n f "mutated" (← ask fun p => p.modifiedBy f))
  | none => pure ()

/-- Looks at a part, and takes over what is done there. -/
def followPart (n c : Node) : Pass Bool := do
  let changed ← indirectEffects c
  inheritEffects n c
  return changed

def counts (p : Program) (n : Node) : Nat × Nat :=
  ((p.accesses .modified n.id).length,(p.accesses .read n.id).length)

theorem indirect_parameter (h : n.isParameter) : indirectEffects n = pure false := by
  rw [indirectEffects,if_pos h]

theorem followCall_bind {β : Type} (n : Node) (k : Unit → Pass β) :
    (followCall n >>= k) = match n with
      | .call _ callee _ _ =>
        if callee.isLocation then do
          let f ← ask fun p => p.target callee
          if f.isOmitted then throw .absent
          addRead n (← stateAccesses n f "read" (← ask fun p => p.readBy f))
          addModified n (← stateAccesses n f "mutated" (← ask fun p => p.modifiedBy f))
          k ()
        else k ()
      | _ => k () := by
  split
  next i callee args options =>
    unfold followCall
    by_cases place : callee.isLocation
    · rw [show called? (.call i callee args options) = some callee from if_pos place,if_pos place]
      simp only [bind_assoc]
      refine bind_congr fun f => ?_
      split <;> simp only [bind_assoc]
    · rw [show called? (.call i callee args options) = none from if_neg place,if_neg place]
      exact pure_bind () k
  next other =>
    have quiet : n.called? = none := by
      unfold called?
      split
      · exact (other _ _ _ _ rfl).elim
      · rfl
    unfold followCall
    rw [quiet]
    exact pure_bind () k

theorem indirectEffects_eq (h : n.isParameter = false) :
    indirectEffects n = (do
      if n.isBare then throw .absent
      let p ← get
      if n.lacksParameters then throw .misused
      let changes ← n.children.mapM (followPart n)
      followCall n
      return changes.any id || counts (← get) n != counts p n) := by
  have attached : n.children.attach.mapM (fun c => followPart n c.1) = n.children.mapM (followPart n) := by
    rw [mapM_subtype (g := followPart n) fun _ _ => rfl,unattach_attach]
  rw [indirectEffects,if_neg (by simp [h]),← attached]
  simp only [followCall_bind]
  rfl

theorem runs_followCall_none (h : n.called? = none) : Runs (followCall n) p () p' ↔ p = p' := by
  unfold followCall
  rw [h]
  exact runs_pure.trans (and_iff_right rfl)

theorem modifiedBy_eq_ok : p.modifiedBy n = .ok as ↔ n.isBare = false ∧ p.accesses .modified n.id = as := by
  unfold Program.modifiedBy
  cases n.isBare <;> simp [Program.accesses,Program.table]

theorem readBy_eq_ok : p.readBy n = .ok as ↔ n.isBare = false ∧ p.accesses .read n.id = as := by
  unfold Program.readBy
  cases n.isBare <;> simp [Program.accesses,Program.table]

theorem runs_followCall (h : n.called? = some callee) : Runs (followCall n) p () p' ↔ ∃ t, p.Callable callee t ∧
      (∀ e, ∀ a ∈ p.accesses e t.id, p.isState a → p.isMapping a = false) ∧
      (p.record .read n.id ((p.accesses .read t.id).filter p.isState)).record .modified n.id
        ((p.accesses .modified t.id).filter p.isState) = p' := by
  have modified (t : Node) (as : List Access) :
      (p.record .read n.id as).accesses .modified t.id = p.accesses .modified t.id := by
    simp [Program.accesses_record]
  have only (as : List Access) := EffectsOnly.record p .read n.id as
  unfold followCall
  rw [h]
  simp only [runs_bind,runs_ask,runs_guard,runs_addRead,runs_addModified,runs_stateAccesses,readBy_eq_ok,modifiedBy_eq_ok]
  constructor
  · rintro ⟨t,_,⟨target,rfl⟩,known,_,_,⟨⟨solid,rfl⟩,rfl⟩,_,_,⟨plain,rfl,rfl⟩,_,_,rfl,_,_,
      ⟨⟨-,rfl⟩,rfl⟩,_,_,⟨plain',rfl,rfl⟩,rfl⟩
    rw [modified,(only _).isState] at plain' ⊢
    rw [(only _).isMapping] at plain'
    refine ⟨t,⟨target,known,solid⟩,fun e => ?_,rfl⟩
    cases e with
    | modified => exact plain'
    | read => exact plain
  · rintro ⟨t,⟨target,known,solid⟩,plain,rfl⟩
    refine ⟨t,p,⟨target,rfl⟩,known,_,p,⟨⟨solid,rfl⟩,rfl⟩,_,p,⟨plain .read,rfl,rfl⟩,(),_,rfl,_,_,
      ⟨⟨solid,rfl⟩,rfl⟩,_,_,⟨?_,rfl,rfl⟩,?_⟩
    · rw [modified,(only _).isState,(only _).isMapping]
      exact plain .modified
    · rw [modified,(only _).isState]

theorem adds_followCall (h : n.called? = some callee) (run : Runs (followCall n) p () p') :
    ∃ t, p.Callable callee t ∧ (∀ e, ∀ a ∈ p.accesses e t.id, p.isState a → p.isMapping a = false) ∧
      Adds n.id (fun e a => a ∈ p.accesses e t.id ∧ p.isState a = true) p p' := by
  obtain ⟨t,callable,plain,rfl⟩ := (runs_followCall h).1 run
  refine ⟨t,callable,plain,((Adds.record p .read n.id _).trans (Adds.record _ .modified n.id _)).congr fun e a => ?_⟩
  cases e <;> simp

theorem runs_indirect (h : n.isParameter = false) :
    Runs (indirectEffects n) p b p' ↔ n.isBare = false ∧ n.lacksParameters = false ∧ ∃ bs q,
      Runs (n.children.mapM (followPart n)) p bs q ∧ Runs (followCall n) q () p' ∧
      b = (bs.any id || counts p' n != counts p n) := by
  rw [indirectEffects_eq h]
  simp only [runs_bind,runs_guard,runs_get,runs_pure]
  constructor
  · rintro ⟨solid,_,_,⟨rfl,rfl⟩,walkable,bs,q,parts,_,_,call,_,_,⟨rfl,rfl⟩,rfl,rfl⟩
    exact ⟨solid,walkable,bs,q,parts,call,rfl⟩
  · rintro ⟨solid,walkable,bs,q,parts,call,rfl⟩
    exact ⟨solid,p,p,⟨rfl,rfl⟩,walkable,bs,q,parts,(),p',call,p',p',⟨rfl,rfl⟩,rfl,rfl⟩

theorem runs_followPart :
    Runs (followPart n c) p b p' ↔ ∃ q, Runs (indirectEffects c) p b q ∧ Runs (inheritEffects n c) q () p' := by
  unfold followPart
  simp only [runs_bind,runs_pure]
  constructor
  · rintro ⟨_,q,first,_,_,rest,rfl,rfl⟩
    exact ⟨q,first,rest⟩
  · rintro ⟨q,first,rest⟩
    exact ⟨b,q,first,(),p',rest,rfl,rfl⟩

theorem grows_inherit : Keeps Grows (inheritEffects n c) := by
  intro p u p' run
  obtain ⟨-,rfl⟩ := runs_inherit.1 run
  exact Trans.trans (Grows.record p .modified n.id _) (Grows.record _ .read n.id _)

theorem grows_followCall : Keeps Grows (followCall n) := by
  intro p u p' run
  cases h : n.called? with
  | none => exact (runs_followCall_none h).1 run ▸ refl p
  | some =>
    obtain ⟨t,-,-,rfl⟩ := (runs_followCall h).1 run
    exact Trans.trans (Grows.record p .read n.id _) (Grows.record _ .modified n.id _)

theorem grows_indirect (n : Node) : Keeps Grows (indirectEffects n) := by
  induction n with
  | step n ih =>
    cases h : n.isParameter with
    | true => exact indirect_parameter h ▸ .pure
    | false =>
      rw [indirectEffects_eq h]
      refine .guard .throw (.bind .get fun _ => .guard .throw (.bind (.mapM fun c hc => ?_) fun _ =>
        .bind grows_followCall fun _ => .bind .get fun _ => .pure))
      exact .bind (ih c (part_of_child hc)) fun _ => .bind grows_inherit fun _ => .pure

end Pass

abbrev Family : Type :=
  Effect → Nat → Access → Prop

structure Below (start : Program) (F : Family) (p : Program) : Prop where
  only : EffectsOnly start p
  mem : ∀ e k a, a ∈ p.accesses e k → F e k a

/-- The family has at a node what it has at the parts of the node and at the called function. -/
structure Closed (p : Program) (F : Family) (n : Node) : Prop where
  part : ∀ c ∈ n.children, ∀ e a, F e c.id a → F e n.id a
  call : ∀ callee, n.called? = some callee → ∀ t, p.target callee = .ok t →
    ∀ e a, F e t.id a → p.isState a = true → F e n.id a

structure Settled (p : Program) (F : Family) (n : Node) : Prop extends Closed p F n where
  solid : n.isBare = false
  walkable : n.lacksParameters = false
  callable : ∀ callee, n.called? = some callee → ∃ t, p.Callable callee t ∧
    ∀ e a, F e t.id a → p.isState a = true → p.isMapping a = false

section Families

variable {start p p' : Program} {F : Family}

theorem Adds.below {k : Nat} {new : Effect → Access → Prop} (h : Adds k new p p') (below : Below start F p)
    (into : ∀ e a, new e a → F e k a) : Below start F p' where
  only := Trans.trans below.only h.only
  mem e j a ha := by
    by_cases same : k = j
    · subst same
      exact ((h.mem e a).1 ha).elim (below.mem e k a) (into e a)
    · rw [h.other e j same] at ha
      exact below.mem e j a ha

variable {n : Node}

theorem below_followPart {c : Node} (part : ∀ e a, F e c.id a → F e n.id a)
    (ih : Keeps (Preserves (Below start F)) (indirectEffects c)) :
    Keeps (Preserves (Below start F)) (followPart n c) := by
  intro p b p' run below
  obtain ⟨q,first,rest⟩ := runs_followPart.1 run
  have inner := ih p b q first below
  exact (adds_inherit rest).below inner fun e a ha => part e a (inner.mem e c.id a ha)

theorem below_followCall (closed : Closed start F n) : Keeps (Preserves (Below start F)) (followCall n) := by
  intro p u p' run below
  cases h : n.called? with
  | none => exact (runs_followCall_none h).1 run ▸ below
  | some callee =>
    obtain ⟨t,callable,-,added⟩ := adds_followCall h run
    refine added.below below fun e a ⟨ha,state⟩ => ?_
    refine closed.call callee h t ?_ e a (below.mem e t.id a ha) ?_
    · rw [← below.only.target,callable.target]
    · rw [← below.only.isState,state]

theorem below_indirect (closed : ∀ m, n.Contains m → m.isParameter = false → Closed start F m) :
    Keeps (Preserves (Below start F)) (indirectEffects n) := by
  induction n with
  | step n ih =>
    cases h : n.isParameter with
    | true => exact indirect_parameter h ▸ .pure
    | false =>
      rw [indirectEffects_eq h]
      refine .guard .throw (.bind .get fun _ => .guard .throw (.bind (.mapM fun c hc => ?_) fun _ =>
        .bind (below_followCall (closed n .self h)) fun _ => .bind .get fun _ => .pure))
      refine below_followPart ((closed n .self h).part c hc) (ih c (part_of_child hc) fun m hm => ?_)
      exact closed m (.child h hc hm)

theorem ends_followCall (settled : Settled start F n) (below : Below start F p) :
    Ends (followCall n) p fun _ => Below start F := by
  have keeps := below_followCall settled.toClosed
  cases h : n.called? with
  | none => exact ⟨(),p,(runs_followCall_none h).2 rfl,below⟩
  | some callee =>
    obtain ⟨t,⟨target,known,solid⟩,plain⟩ := settled.callable callee h
    have run := (runs_followCall h).2 ⟨t,⟨(below.only.target callee).trans target,known,solid⟩,fun e a ha state => ?_, rfl⟩
    · exact ⟨(),_,run,keeps p () _ run below⟩
    · rw [below.only.isState] at state
      rw [below.only.isMapping]
      exact plain e a (below.mem e t.id a ha) state

theorem ends_indirect (settled : ∀ m, n.Contains m → m.isParameter = false → Settled start F m)
    (below : Below start F p) : Ends (indirectEffects n) p fun _ => Below start F := by
  induction n generalizing p with
  | step n ih =>
    cases h : n.isParameter with
    | true =>
      rw [indirect_parameter h]
      exact .pure below
    | false =>
      have own := settled n .self h
      have parts : Ends (n.children.mapM (followPart n)) p fun _ => Below start F := by
        refine .mapM_of_forall (fun c hc p below => ?_) below
        have inner : ∀ m, c.Contains m → m.isParameter = false → Settled start F m :=
          fun m hm => settled m (.child h hc hm)
        have solid : c.isBare = false := by
          cases parameter : c.isParameter with
          | true => cases c <;> first | rfl | cases parameter
          | false => exact (inner c .self parameter).solid
        obtain ⟨b,q,first,below⟩ := ih c (part_of_child hc) inner below
        have rest : Runs (inheritEffects n c) q () _ := runs_inherit.2 ⟨solid,rfl⟩
        refine ⟨b,_,runs_followPart.2 ⟨q,first,rest⟩,?_⟩
        exact (adds_inherit rest).below below fun e a ha => own.part c hc e a (below.mem e c.id a ha)
      obtain ⟨bs,q,first,below⟩ := parts
      obtain ⟨_,p',last,below⟩ := ends_followCall own below
      exact ⟨_,p',(runs_indirect h).2 ⟨own.solid,own.walkable,bs,q,first,last,rfl⟩,below⟩

end Families

def Program.recorded (p : Program) : Family :=
  fun e k a => a ∈ p.accesses e k

/-- The same accesses are recorded. -/
structure Idle (start p : Program) : Prop where
  only : EffectsOnly start p
  accesses : ∀ e k, p.accesses e k = start.accesses e k

section Rounds

variable {start p q r p' : Program}

theorem Grows.squeeze {k : Nat} (h : Grows p q) (h' : Grows q r) (same : ∀ e, r.accesses e k = p.accesses e k) (e : Effect) :
    q.accesses e k = p.accesses e k := by
  have first := (h.prefix_accesses e k).length_le
  have second := (h'.prefix_accesses e k).length_le
  rw [same] at second
  exact ((h.prefix_accesses e k).eq_of_length (Nat.le_antisymm first second)).symm

variable {n : Node}

variable {c : Node} {cs : List Node} {bs : List Bool}

theorem Grows.accesses_eq (h : Grows p q) (same : counts q n = counts p n) (e : Effect) :
    q.accesses e n.id = p.accesses e n.id := by
  have lengths := Prod.mk.inj same
  refine ((h.prefix_accesses e n.id).eq_of_length ?_).symm
  cases e with
  | modified => exact lengths.1.symm
  | read => exact lengths.2.symm

theorem idle_followPart (ih : ∀ p', Runs (indirectEffects c) p false p' → Idle start p')
    (run : Runs (followPart n c) p false p') (same : ∀ e, p'.accesses e n.id = start.accesses e n.id) :
    Idle start p' ∧ ∀ e a, start.recorded e c.id a → start.recorded e n.id a := by
  obtain ⟨q,first,rest⟩ := runs_followPart.1 run
  have idle := ih q first
  have added := adds_inherit rest
  refine ⟨⟨Trans.trans idle.only added.only,fun e k => ?_⟩,fun e a ha => ?_⟩
  · by_cases hk : n.id = k
    · exact hk ▸ same e
    · rw [added.other e k hk,idle.accesses]
  · have mem := (added.mem e a).2 (.inr (by rw [idle.accesses]; exact ha))
    rw [same] at mem
    exact mem

theorem grows_followPart : Keeps Grows (followPart n c) :=
  .bind (grows_indirect c) fun _ => .bind grows_inherit fun _ => .pure

theorem idle_followParts (idle : Idle start p)
    (ih : ∀ c ∈ cs, ∀ p p', Idle start p → Runs (indirectEffects c) p false p' → Idle start p')
    (run : Runs (cs.mapM (followPart n)) p bs p') (unchanged : bs.any id = false)
    (same : ∀ e, p'.accesses e n.id = start.accesses e n.id) :
    Idle start p' ∧ ∀ c ∈ cs, (∃ q q', Idle start q ∧ Runs (indirectEffects c) q false q') ∧
      ∀ e a, start.recorded e c.id a → start.recorded e n.id a := by
  induction cs generalizing p bs with
  | nil =>
    obtain ⟨-,rfl⟩ := runs_mapM_nil.1 run
    exact ⟨idle,by simp⟩
  | cons c cs step =>
    obtain ⟨b,bs,q,first,rest,rfl⟩ := runs_mapM_cons.1 run
    rw [any_cons,Bool.or_eq_false_iff] at unchanged
    obtain ⟨rfl,unchanged⟩ := unchanged
    rw [forall_mem_cons] at ih
    have later : Keeps Grows (cs.mapM (followPart n)) := .mapM fun c _ => grows_followPart
    have between (e : Effect) : q.accesses e n.id = start.accesses e n.id := by
      rw [← idle.accesses e]
      refine (grows_followPart p false q first).squeeze (later q bs p' rest) (fun e => ?_) e
      rw [same,idle.accesses]
    obtain ⟨idle',inner⟩ := idle_followPart (fun r => ih.1 p r idle) first between
    obtain ⟨last,all⟩ := step idle' ih.2 rest unchanged
    obtain ⟨r,run',-⟩ := runs_followPart.1 first
    exact ⟨last,forall_mem_cons.2 ⟨⟨⟨p,r,idle,run'⟩,inner⟩,all⟩⟩

theorem settled_followCall (idle : Idle start p) (solid : n.isBare = false) (walkable : n.lacksParameters = false)
    (part : ∀ c ∈ n.children, ∀ e a, start.recorded e c.id a → start.recorded e n.id a)
    (run : Runs (followCall n) p () p') (same : ∀ e, p'.accesses e n.id = start.accesses e n.id) :
    Idle start p' ∧ Settled start start.recorded n := by
  cases h : n.called? with
  | none =>
    obtain rfl := (runs_followCall_none h).1 run
    exact ⟨idle,⟨part,by simp [h]⟩,solid,walkable,by simp [h]⟩
  | some =>
    obtain ⟨t,⟨target,known,bare⟩,plain,added⟩ := adds_followCall h run
    rw [idle.only.target] at target
    refine ⟨⟨Trans.trans idle.only added.only,fun e k => ?_⟩,⟨part,?_⟩,solid,walkable,?_⟩
    · by_cases hk : n.id = k
      · exact hk ▸ same e
      · rw [added.other e k hk,idle.accesses]
    · intro callee' h' t' target' e a ha state
      cases h.symm.trans h'
      cases target.symm.trans target'
      have mem := (added.mem e a).2 (.inr ⟨by rw [idle.accesses]; exact ha,by rw [idle.only.isState]; exact state⟩)
      rw [same] at mem
      exact mem
    · intro callee' h'
      cases h.symm.trans h'
      refine ⟨t,⟨target,known,bare⟩,fun e a ha state => ?_⟩
      rw [← idle.only.isMapping]
      exact plain e a (by rw [idle.accesses]; exact ha) (by rw [idle.only.isState]; exact state)

theorem settled_of_runs (idle : Idle start p) (run : Runs (indirectEffects n) p false p') :
    Idle start p' ∧ ∀ m, n.Contains m → m.isParameter = false → Settled start start.recorded m := by
  induction n generalizing p p' with
  | step n ih =>
    cases h : n.isParameter with
    | true =>
      rw [indirect_parameter h] at run
      obtain ⟨-,rfl⟩ := runs_pure.1 run
      refine ⟨idle,fun m hm plain => ?_⟩
      cases hm with
      | self => rw [h] at plain; cases plain
      | child op => rw [h] at op; cases op
    | false =>
      obtain ⟨solid,walkable,bs,q,parts,call,flag⟩ := (runs_indirect h).1 run
      rw [eq_comm,Bool.or_eq_false_iff,bne_eq_false_iff_eq] at flag
      have first : Grows p q := (Keeps.mapM fun c _ => grows_followPart) p bs q parts
      have second := grows_followCall q () p' call
      have same (e : Effect) : p'.accesses e n.id = start.accesses e n.id := by
        rw [(Trans.trans first second).accesses_eq flag.2,idle.accesses]
      have between (e : Effect) : q.accesses e n.id = start.accesses e n.id := by
        rw [← idle.accesses e]
        refine first.squeeze second (fun e => ?_) e
        rw [same,idle.accesses]
      obtain ⟨idle',inner⟩ := idle_followParts idle
        (fun c hc p p' idle run => (ih c (part_of_child hc) idle run).1) parts flag.1 between
      have own := settled_followCall idle' solid walkable (fun c hc => (inner c hc).2) call same
      refine ⟨own.1,fun m hm plain => ?_⟩
      cases hm with
      | self => exact own.2
      | @child _ c _ _ hc hm =>
        obtain ⟨⟨r,r',idle,run⟩,-⟩ := inner c hc
        exact (ih c (part_of_child hc) idle run).2 m hm plain

def Gains (k : Nat) (p p' : Program) : Prop :=
  ∃ e, (p.accesses e k).length < (p'.accesses e k).length

theorem Gains.widen {k : Nat} (h : Gains k q r) (before : Grows p q) (after : Grows r p') : Gains k p p' := by
  obtain ⟨e,lt⟩ := h
  have first := (before.prefix_accesses e k).length_le
  have last := (after.prefix_accesses e k).length_le
  exact ⟨e,by omega⟩

theorem Grows.gains (h : Grows p q) (more : counts q n ≠ counts p n) : Gains n.id p q := by
  by_contra none
  have same (e : Effect) : (q.accesses e n.id).length = (p.accesses e n.id).length := by
    have le := (h.prefix_accesses e n.id).length_le
    have := not_exists.1 none e
    omega
  exact more (by rw [counts,counts,same,same])

theorem gains_mapM {f : Node → Pass Bool} (grows : ∀ c, Keeps Grows (f c))
    (ih : ∀ c ∈ cs, ∀ p p', Runs (f c) p true p' → ∃ m, c.Contains m ∧ Gains m.id p p')
    (run : Runs (cs.mapM f) p bs p') (changed : bs.any id) : ∃ c ∈ cs, ∃ m, c.Contains m ∧ Gains m.id p p' := by
  induction cs generalizing p bs with
  | nil =>
    obtain ⟨rfl,-⟩ := runs_mapM_nil.1 run
    cases changed
  | cons c _ step =>
    obtain ⟨b,bs,q,first,rest,rfl⟩ := runs_mapM_cons.1 run
    rw [forall_mem_cons] at ih
    have before := grows c p b q first
    have after : Grows q p' := (Keeps.mapM fun c _ => grows c) q bs p' rest
    cases b with
    | true =>
      obtain ⟨m,hm,gains⟩ := ih.1 p q first
      exact ⟨c,mem_cons_self,m,hm,gains.widen (refl p) after⟩
    | false =>
      obtain ⟨d,hd,m,hm,gains⟩ := step ih.2 rest (by simpa using changed)
      exact ⟨d,mem_cons_of_mem _ hd,m,hm,gains.widen before (refl p')⟩

theorem gains_indirect (run : Runs (indirectEffects n) p true p') : ∃ m, n.Contains m ∧ Gains m.id p p' := by
  induction n generalizing p p' with
  | step n ih =>
    cases h : n.isParameter with
    | true =>
      rw [indirect_parameter h] at run
      cases (runs_pure.1 run).1
    | false =>
      obtain ⟨-,-,bs,q,parts,call,flag⟩ := (runs_indirect h).1 run
      have first : Grows p q := (Keeps.mapM fun c _ => grows_followPart) p bs q parts
      have second := grows_followCall q () p' call
      rw [eq_comm,Bool.or_eq_true] at flag
      obtain changed | more := flag
      · have inner : ∀ c ∈ n.children, ∀ p p', Runs (followPart n c) p true p' → ∃ m, c.Contains m ∧ Gains m.id p p' := by
          intro c hc p p' run
          obtain ⟨r,inner,inherit⟩ := runs_followPart.1 run
          obtain ⟨m,hm,gains⟩ := ih c (part_of_child hc) inner
          exact ⟨m,hm,gains.widen (refl p) (grows_inherit r () p' inherit)⟩
        obtain ⟨c,hc,m,hm,gains⟩ := gains_mapM (fun c => grows_followPart) inner parts changed
        exact ⟨m,.child h hc hm,gains.widen (refl p) second⟩
      · exact ⟨n,.self,(Trans.trans first second).gains (bne_iff_ne.1 more)⟩

theorem runs_effectsRound {b : Bool} :
    Runs effectsRound p b p' ↔ ∃ bs, Runs (p.routines.mapM indirectEffects) p bs p' ∧ b = bs.any id := by
  unfold effectsRound
  simp only [runs_bind,runs_get,runs_pure]
  constructor
  · rintro ⟨_,_,⟨rfl,rfl⟩,bs,_,run,rfl,rfl⟩
    exact ⟨bs,run,rfl⟩
  · rintro ⟨bs,run,rfl⟩
    exact ⟨p,p,⟨rfl,rfl⟩,bs,p',run,rfl,rfl⟩

theorem grows_effectsRound : Keeps Grows effectsRound :=
  .bind .get fun _ => .bind (.mapM fun c _ => grows_indirect c) fun _ => .pure

theorem gains_effectsRound (run : Runs effectsRound p true p') :
    ∃ f ∈ p.routines, ∃ m, f.Contains m ∧ Gains m.id p p' := by
  obtain ⟨bs,run,changed⟩ := runs_effectsRound.1 run
  exact gains_mapM grows_indirect (fun _ _ _ _ => gains_indirect) run changed.symm

theorem settled_effectsRound (run : Runs effectsRound p false p') :
    Idle p p' ∧ ∀ f ∈ p.routines, ∀ m, f.Contains m → m.isParameter = false → Settled p p.recorded m := by
  obtain ⟨bs,run,unchanged⟩ := runs_effectsRound.1 run
  have all {fs : List Node} {bs : List Bool} {q : Program} (idle : Idle p q) (unchanged : bs.any id = false)
      (run : Runs (fs.mapM indirectEffects) q bs p') :
      Idle p p' ∧ ∀ f ∈ fs, ∀ m, f.Contains m → m.isParameter = false → Settled p p.recorded m := by
    induction fs generalizing q bs with
    | nil =>
      obtain ⟨-,rfl⟩ := runs_mapM_nil.1 run
      exact ⟨idle,by simp⟩
    | cons _ _ ih =>
      obtain ⟨b,bs,r,first,rest,rfl⟩ := runs_mapM_cons.1 run
      rw [any_cons,Bool.or_eq_false_iff] at unchanged
      obtain ⟨rfl,unchanged⟩ := unchanged
      obtain ⟨idle,here⟩ := settled_of_runs idle first
      obtain ⟨last,later⟩ := ih idle unchanged rest
      exact ⟨last,forall_mem_cons.2 ⟨here,later⟩⟩
  exact all ⟨refl p,fun _ _ => rfl⟩ unchanged.symm run

end Rounds
end Confidential
