import Confidential.Proofs.Outcome

/-!
Successful runs of the steps of an analysis.
-/

namespace Confidential.Pass

open List

variable {α β : Type}

/-- From `p` the step ends in `p'` with the result `a`. -/
def Runs (x : Pass α) (p : Program) (a : α) (p' : Program) : Prop :=
  x.run p = (.ok a,p')

variable {p p' : Program}

variable {x : Pass α} {a : α} {b : β} {q : Program}

theorem Runs.unique {b : α} (h : Runs x p a p') (h' : Runs x p b q) : a = b ∧ p' = q := by
  have same : (Except.ok a,p') = (Except.ok b,q) := Eq.trans (Eq.symm h) h'
  cases same
  exact ⟨rfl,rfl⟩

@[simp] theorem runs_pure {b : α} : Runs (pure a) p b p' ↔ a = b ∧ p = p' := by
  change (Except.ok a,p) = (Except.ok b,p') ↔ _
  rw [Prod.mk.injEq,Except.ok.injEq]

theorem run_bind {σ : Type} (x : ExceptT Fault (StateM σ) α) (f : α → ExceptT Fault (StateM σ) β) (s : σ) :
    (x >>= f).run s = match x.run s with
      | (.ok a,t) => (f a).run t
      | (.error e,t) => (.error e,t) := by
  unfold ExceptT.run
  simp only [bind,ExceptT.bind,ExceptT.mk,StateT.bind]
  cases x s with
  | mk r => cases r <;> rfl

theorem run_bind_eq_ok {σ : Type} {x : ExceptT Fault (StateM σ) α} {f : α → ExceptT Fault (StateM σ) β} {s s' : σ}
    : (x >>= f).run s = (.ok b,s') ↔ ∃ a t, x.run s = (.ok a,t) ∧ (f a).run t = (.ok b,s') := by
  rw [run_bind]
  cases x.run s with
  | mk r t =>
    cases r with
    | ok a =>
      constructor
      · exact fun h => ⟨a,t,rfl,h⟩
      · rintro ⟨a',t',⟨rfl,rfl⟩,h⟩
        exact h
    | error =>
      constructor
      · intro h
        cases h
      · rintro ⟨a',t',h,-⟩
        cases h

theorem run_ask (f : Program → Outcome α) (p : Program) : (ask f).run p = (f p,p) := by
  unfold ask
  rw [run_bind,show (get : Pass Program).run p = (.ok p,p) from rfl]
  dsimp only
  cases f p <;> rfl

theorem runs_bind {f : α → Pass β} : Runs (x >>= f) p b p' ↔ ∃ a q, Runs x p a q ∧ Runs (f a) q b p' :=
  run_bind_eq_ok

@[simp] theorem runs_get : Runs get p q p' ↔ p = q ∧ p = p' := by
  change (Except.ok p,p) = (Except.ok q,p') ↔ _
  rw [Prod.mk.injEq,Except.ok.injEq]

@[simp] theorem runs_modify {f : Program → Program} {u : Unit} : Runs (modify f) p u p' ↔ f p = p' := by
  change (Except.ok (),f p) = (Except.ok u,p') ↔ _
  simp

@[simp] theorem runs_throw {e : Fault} : ¬ Runs (throw e) p a p' := by
  intro h
  change (Except.error e,p) = (Except.ok a,p') at h
  simp at h

@[simp] theorem runs_ofOutcome {r : Outcome α} : Runs (ofOutcome r) p a p' ↔ r = .ok a ∧ p = p' := by
  change (r,p) = (Except.ok a,p') ↔ _
  rw [Prod.mk.injEq]

@[simp] theorem runs_ask {f : Program → Outcome α} : Runs (ask f) p a p' ↔ f p = .ok a ∧ p = p' := by
  unfold Runs
  rw [run_ask,Prod.mk.injEq]

section Bind

variable {f : α → Pass β} {b : β}

theorem runs_get_bind {f : Program → Pass β} : Runs (get >>= f) p b p' ↔ Runs (f p) p b p' :=
  Iff.rfl

theorem runs_throw_bind {e : Fault} : ¬ Runs (throw e >>= f) p b p' := by
  simp

theorem runs_ofOutcome_bind {r : Outcome α} : Runs (ofOutcome r >>= f) p b p' ↔ ∃ a, r = .ok a ∧ Runs (f a) p b p' := by
  simp [runs_bind]

theorem runs_ask_bind {g : Program → Outcome α} : Runs (ask g >>= f) p b p' ↔ ∃ a, g p = .ok a ∧ Runs (f a) p b p' := by
  simp [runs_bind]

end Bind

variable {a : α} {u : Unit} {as : List α} {bs : List β}

theorem runs_guard {c : Bool} {e : Fault} {f : PUnit → Pass α} {x : Pass α} :
    Runs (if c then throw e >>= f else x) p a p' ↔ c = false ∧ Runs x p a p' := by
  cases c with
  | true =>
    rw [if_pos rfl,runs_bind]
    simp
  | false => simp

theorem runs_forM_nil {f : α → Pass Unit} : Runs (([] : List α).forM f) p u p' ↔ p = p' := by
  change Runs (pure ()) p u p' ↔ _
  simp

theorem runs_forM_cons {f : α → Pass Unit} :
    Runs ((a :: as).forM f) p u p' ↔ ∃ q, Runs (f a) p () q ∧ Runs (as.forM f) q () p' := by
  change Runs (f a >>= fun _ => as.forM f) p u p' ↔ _
  rw [runs_bind]
  exact ⟨fun ⟨_,q,h⟩ => ⟨q,h⟩,fun ⟨q,h⟩ => ⟨(),q,h⟩⟩

theorem runs_mapM_nil {f : α → Pass β} : Runs (([] : List α).mapM f) p bs p' ↔ bs = [] ∧ p = p' := by
  rw [mapM_nil,runs_pure]
  exact ⟨fun ⟨h,h'⟩ => ⟨h.symm,h'⟩,fun ⟨h,h'⟩ => ⟨h.symm,h'⟩⟩

theorem runs_mapM_cons {f : α → Pass β} : Runs ((a :: as).mapM f) p bs p' ↔
      ∃ b bs' q, Runs (f a) p b q ∧ Runs (as.mapM f) q bs' p' ∧ bs = b :: bs' := by
  rw [mapM_cons]
  simp only [runs_bind,runs_pure]
  constructor
  · rintro ⟨b,q,hb,bs',q',hbs,rfl,rfl⟩
    exact ⟨b,bs',q,hb,hbs,rfl⟩
  · rintro ⟨b,bs',q,hb,hbs,rfl⟩
    exact ⟨b,q,hb,bs',p',hbs,rfl,rfl⟩

theorem forall₂_of_runs_mapM {f : α → Pass β} {R : α → β → Prop}
    (each : ∀ a ∈ as, ∀ p b p', Runs (f a) p b p' → R a b) (run : Runs (as.mapM f) p bs p') : Forall₂ R as bs := by
  induction as generalizing p bs with
  | nil =>
    obtain ⟨rfl,-⟩ := runs_mapM_nil.1 run
    exact .nil
  | cons _ _ ih =>
    rw [forall_mem_cons] at each
    obtain ⟨b,bs,q,first,rest,rfl⟩ := runs_mapM_cons.1 run
    exact .cons (each.1 _ _ _ first) (ih each.2 rest)

theorem runs_mapM_of_pure {f : α → Pass β} {P : Program → α → β → Prop}
    (step : ∀ a b p p', Runs (f a) p b p' → P p a b ∧ p = p')
    (h : Runs (as.mapM f) p bs p') : Forall₂ (P p) as bs ∧ p = p' := by
  induction as generalizing bs with
  | nil =>
    obtain ⟨rfl,rfl⟩ := runs_mapM_nil.1 h
    exact ⟨.nil,rfl⟩
  | cons a _ ih =>
    obtain ⟨b,bs',q,hb,hbs,rfl⟩ := runs_mapM_cons.1 h
    obtain ⟨first,rfl⟩ := step a b p q hb
    obtain ⟨rest,rfl⟩ := ih hbs
    exact ⟨.cons first rest,rfl⟩

theorem runs_forM_induction {R : Program → Program → Prop} (refl : ∀ p, R p p)
    (trans : ∀ p q r, R p q → R q r → R p r) {f : α → Pass Unit}
    (step : ∀ a ∈ as, ∀ p p', Runs (f a) p () p' → R p p') (h : Runs (as.forM f) p () p') : R p p' := by
  induction as generalizing p with
  | nil => exact runs_forM_nil.1 h ▸ refl p
  | cons _ _ ih =>
    obtain ⟨q,ha,h⟩ := runs_forM_cons.1 h
    rw [forall_mem_cons] at step
    exact trans p q p' (step.1 p q ha) (ih step.2 h)

def Ends (x : Pass α) (p : Program) (Q : α → Program → Prop) : Prop :=
  ∃ a p', Runs x p a p' ∧ Q a p'

namespace Ends

variable {Q : β → Program → Prop} {R : α → Program → Prop}

variable {as : List α}

theorem bind {x : Pass α} {f : α → Pass β} (h : Ends x p R) (step : ∀ a q, R a q → Ends (f a) q Q) :
    Ends (x >>= f) p Q := by
  obtain ⟨a,q,run,ha⟩ := h
  obtain ⟨b,p',run',hb⟩ := step a q ha
  exact ⟨b,p',runs_bind.2 ⟨a,q,run,run'⟩,hb⟩

theorem pure {a : α} (h : R a p) : Ends (pure a) p R :=
  ⟨a,p,runs_pure.2 ⟨rfl,rfl⟩,h⟩

theorem get {R : Program → Program → Prop} (h : R p p) : Ends get p R :=
  ⟨p,p,runs_get.2 ⟨rfl,rfl⟩,h⟩

theorem forM {I : Program → Prop} {f : α → Pass Unit}
    (step : ∀ a ∈ as, ∀ p, I p → Ends (f a) p fun _ => I) (h : I p) : Ends (as.forM f) p fun _ => I := by
  induction as generalizing p with
  | nil => exact ⟨(),p,runs_forM_nil.2 rfl,h⟩
  | cons _ _ ih =>
    rw [forall_mem_cons] at step
    obtain ⟨_,q,run,hq⟩ := step.1 p h
    obtain ⟨_,p',run',hp⟩ := ih step.2 hq
    exact ⟨(),p',runs_forM_cons.2 ⟨q,run,run'⟩,hp⟩

theorem mapM_of_forall {I : Program → Prop} {f : α → Pass β}
    (step : ∀ a ∈ as, ∀ p, I p → Ends (f a) p fun _ => I) (h : I p) : Ends (as.mapM f) p fun _ => I := by
  induction as generalizing p with
  | nil => exact ⟨[],p,runs_mapM_nil.2 ⟨rfl,rfl⟩,h⟩
  | cons _ _ ih =>
    rw [forall_mem_cons] at step
    obtain ⟨b,q,first,hq⟩ := step.1 p h
    obtain ⟨bs,p',rest,hp⟩ := ih step.2 hq
    exact ⟨b :: bs,p',runs_mapM_cons.2 ⟨b,bs,q,first,rest,rfl⟩,hp⟩

end Ends

variable {R : Program → Program → Prop}

/-- Wherever the step ends, `R` relates the end to the start. -/
def Keeps (R : Program → Program → Prop) (x : Pass α) : Prop :=
  ∀ p a p', Runs x p a p' → R p p'

namespace Keeps

theorem throw {e : Fault} : Keeps R (throw e : Pass α) :=
  fun _ _ _ h => absurd h runs_throw

theorem modify {f : Program → Program} (h : ∀ p, R p (f p)) : Keeps R (modify f) :=
  fun p _ _ run => runs_modify.1 run ▸ h p

theorem ofOutcome_bind {r : Outcome α} {f : α → Pass β} (step : ∀ a, r = .ok a → Keeps R (f a)) :
    Keeps R (ofOutcome r >>= f) := by
  intro p b p' run
  obtain ⟨a,q,first,rest⟩ := runs_bind.1 run
  obtain ⟨eq,rfl⟩ := runs_ofOutcome.1 first
  exact step a eq p b p' rest

theorem bind [IsTrans Program R] {x : Pass α} {f : α → Pass β} (h : Keeps R x) (step : ∀ a, Keeps R (f a)) :
    Keeps R (x >>= f) := by
  intro p b p' run
  obtain ⟨a,q,first,rest⟩ := runs_bind.1 run
  exact Trans.trans (h p a q first) (step a q b p' rest)

theorem guard [IsTrans Program R] {c : Prop} [Decidable c] {x : Pass PUnit} {y : Pass β} (hx : Keeps R x)
    (hy : Keeps R y) : Keeps R (if c then x >>= fun _ => y else y) := by
  split
  · exact hx.bind fun _ => hy
  · exact hy

variable [Std.Refl R]

theorem pure {a : α} : Keeps R (pure a) := by
  intro p b p' h
  obtain ⟨-,rfl⟩ := runs_pure.1 h
  exact refl p

theorem get : Keeps R get := by
  intro p b p' h
  obtain ⟨-,rfl⟩ := runs_get.1 h
  exact refl p

theorem ofOutcome {r : Outcome α} : Keeps R (ofOutcome r) := by
  intro p b p' h
  obtain ⟨-,rfl⟩ := runs_ofOutcome.1 h
  exact refl p

theorem ask {f : Program → Outcome α} : Keeps R (ask f) := by
  intro p b p' h
  obtain ⟨-,rfl⟩ := runs_ask.1 h
  exact refl p

variable [IsTrans Program R]

variable {as : List α}

theorem refuse {kind : String → Fault} {n : Node} {message : String} : Keeps R (refuse kind n message : Pass α) :=
  ask.bind fun _ => throw

theorem forM {f : α → Pass Unit} (step : ∀ a ∈ as, Keeps R (f a)) : Keeps R (as.forM f) := by
  induction as with
  | nil => exact pure
  | cons _ _ ih =>
    rw [forall_mem_cons] at step
    exact step.1.bind fun _ => ih step.2

theorem runs_of_mem {f : α → Pass Unit} {a : α} (step : ∀ a ∈ as, Keeps R (f a))
    (run : Runs (as.forM f) p () p') (ha : a ∈ as) : ∃ q q', R p q ∧ Runs (f a) q () q' := by
  induction as generalizing p with
  | nil => cases ha
  | cons _ _ ih =>
    rw [forall_mem_cons] at step
    obtain ⟨q,first,rest⟩ := runs_forM_cons.1 run
    obtain rfl | ha := mem_cons.1 ha
    · exact ⟨p,q,refl p,first⟩
    · obtain ⟨r,r',before,run⟩ := ih step.2 rest ha
      exact ⟨r,r',Trans.trans (step.1 p () q first) before,run⟩

theorem foldlM {f : β → α → Pass β} (step : ∀ b, ∀ a ∈ as, Keeps R (f b a)) (b : β) :
    Keeps R (as.foldlM f b) := by
  induction as generalizing b with
  | nil => exact pure
  | cons a _ ih =>
    rw [foldlM_cons]
    exact (step b a mem_cons_self).bind fun b => ih (fun b a ha => step b a (mem_cons_of_mem _ ha)) b

theorem mapM {f : α → Pass β} (step : ∀ a ∈ as, Keeps R (f a)) : Keeps R (as.mapM f) := by
  induction as with
  | nil => exact pure
  | cons _ _ ih =>
    rw [forall_mem_cons] at step
    rw [mapM_cons]
    exact step.1.bind fun _ => (ih step.2).bind fun _ => pure

end Keeps

def Preserves (I : Program → Prop) (p p' : Program) : Prop :=
  I p → I p'

instance (I : Program → Prop) : Std.Refl (Preserves I) := ⟨fun _ h => h⟩

instance (I : Program → Prop) : IsTrans Program (Preserves I) := ⟨fun _ _ _ h h' hp => h' (h hp)⟩

/-- Does the step succeed, with a result and a program for which the test holds? -/
def succeeds (x : Pass α) (p : Program) (test : α → Program → Bool) : Bool :=
  match x.run p with
  | (.ok a,q) => test a q
  | _ => false

theorem of_succeeds {x : Pass α} {test : α → Program → Bool} (h : x.succeeds p test = true) :
    ∃ a q, Runs x p a q ∧ test a q = true := by
  unfold succeeds at h
  split at h
  next a q run => exact ⟨a,q,run,h⟩
  next => cases h

/-- Reads a source that is given by its characters, so that nothing has to be decoded. -/
def loadCharacters (cs : List Char) : Pass Unit := do
  let lines := (Text.linesKept cs).map fun l => String.ofList (l.takeWhile fun c => !Text.isLineBreak c)
  let n ← ofOutcome (match Surface.Source.ofTokens (Token.visible (Token.scan .first 0 cs)) with
    | .ok source => source.toNode ⟨lines,cs⟩
    | .error t => do .error (← Source.unexpected t (String.ofList cs)))
  let n ← register n
  modify fun p => { p with root := n.id, lines }

theorem load_eq {text : String} {cs : List Char} (h : text = String.ofList cs) : load text = loadCharacters cs := by
  subst h
  unfold load loadCharacters Source.unit Source.parse Surface.Source.parse Token.ofSource Text.lines
  rw [String.toList_ofList]
  cases Surface.Source.ofTokens (Token.visible (Token.scan .first 0 cs)) with
  | ok => rfl
  | error t =>
    dsimp only
    cases Source.unexpected t (String.ofList cs) <;> rfl

theorem append_eq_ofList {a b : String} {as bs : List Char} (ha : a = String.ofList as) (hb : b = String.ofList bs) :
    a ++ b = String.ofList (as ++ bs) := by
  rw [ha,hb,String.ofList_append]

end Confidential.Pass
