import Mathlib
import Confidential.Compiler

/-!
Computations that can fail: what a success says about the steps.
-/

namespace Confidential

open List

theorem forall₂_exists_of_mem {α β : Type} {R : α → β → Prop} {as : List α} {bs : List β}
    (h : Forall₂ R as bs) {a : α} (ha : a ∈ as) : ∃ b ∈ bs, R a b := by
  induction h with
  | nil => cases ha
  | cons hb _ ih =>
    obtain rfl | ha := mem_cons.1 ha
    · exact ⟨_,mem_cons_self,hb⟩
    · obtain ⟨b,mem,hb⟩ := ih ha
      exact ⟨b,mem_cons_of_mem _ mem,hb⟩

variable {α β : Type} {x : Outcome α} {b : β}

theorem bind_ok {f : α → Outcome β} :
    (x >>= f) = .ok b ↔ ∃ a, x = .ok a ∧ f a = .ok b := by
  cases x <;> simp [bind,Except.bind]

namespace Outcome

variable {as : List α}

theorem pure_eq_ok {a b : α} : (pure a : Outcome α) = .ok b ↔ a = b := by
  simp [pure,Except.pure]

theorem map_eq_ok {f : α → β} :
    (f <$> x) = .ok b ↔ ∃ a, x = .ok a ∧ f a = b := by
  cases x <;> simp [Functor.map,Except.map]

theorem mapM_eq_ok {f : α → Outcome β} {bs : List β} :
    as.mapM f = .ok bs ↔ Forall₂ (fun a b => f a = .ok b) as bs := by
  induction as generalizing bs with
  | nil =>
    rw [mapM_nil,pure_eq_ok,forall₂_nil_left_iff]
    exact eq_comm
  | cons _ _ ih =>
    simp only [mapM_cons,bind_ok,pure_eq_ok,ih,forall₂_cons_left_iff]
    constructor
    · rintro ⟨b,hb,bs',hbs,rfl⟩
      exact ⟨b,bs',hb,hbs,rfl⟩
    · rintro ⟨b,bs',hb,hbs,rfl⟩
      exact ⟨b,hb,bs',hbs,rfl⟩

theorem exists_mapM {f : α → Outcome β} (h : ∀ a ∈ as, ∃ b, f a = .ok b) :
    ∃ bs, as.mapM f = .ok bs := by
  induction as with
  | nil => exact ⟨[],rfl⟩
  | cons _ _ ih =>
    rw [forall_mem_cons] at h
    obtain ⟨b,hb⟩ := h.1
    obtain ⟨bs,hbs⟩ := ih h.2
    exact ⟨b :: bs,mapM_eq_ok.2 (.cons hb (mapM_eq_ok.1 hbs))⟩

def Yields (P : α → Prop) (x : Outcome α) : Prop :=
  ∀ a, x = .ok a → P a

namespace Yields

variable {P : α → Prop} {Q : β → Prop} {x : Outcome α}

variable {a : α} {e : Fault}

theorem pure (h : P a) : Yields P (pure a) := by
  intro b hb
  rw [pure_eq_ok] at hb
  exact hb ▸ h

theorem ok (h : P a) : Yields P (.ok a) :=
  pure h

theorem error : Yields P (.error e) := by
  intro a ha
  cases ha

theorem bind {f : α → Outcome β} (hx : Yields P x) (hf : ∀ a, P a → Yields Q (f a)) :
    Yields Q (x >>= f) := by
  intro b hb
  obtain ⟨a,ha,hb⟩ := bind_ok.1 hb
  exact hf a (hx a ha) b hb

theorem skip {f : α → Outcome β} (hf : ∀ a, Yields Q (f a)) : Yields Q (x >>= f) :=
  bind (P := fun _ => True) (fun _ _ => trivial) fun a _ => hf a

theorem map {f : α → β} (hx : Yields P x) (hf : ∀ a, P a → Q (f a)) : Yields Q (f <$> x) := by
  intro b hb
  obtain ⟨a,ha,rfl⟩ := map_eq_ok.1 hb
  exact hf a (hx a ha)

theorem guard {c : Prop} [Decidable c] {f : α → Outcome β} {y : Outcome β} (hy : Yields Q y) :
    Yields Q (if c then .error e >>= f else y) := by
  split
  · exact error (P := fun _ => False).bind fun _ h => h.elim
  · exact hy

theorem mono {P' : α → Prop} (hx : Yields P x) (h : ∀ a, P a → P' a) : Yields P' x :=
  fun a ha => h a (hx a ha)

theorem cons {xs : Outcome (List α)} (hx : Yields P x) (hxs : Yields (fun as => ∀ a ∈ as, P a) xs) :
    Yields (fun as => ∀ a ∈ as, P a) (do return (← x) :: (← xs)) :=
  hx.bind fun _ h => hxs.bind fun _ hs => .pure (forall_mem_cons.2 ⟨h,hs⟩)

theorem mapM {f : α → Outcome β} {as : List α} (hf : ∀ a ∈ as, Yields Q (f a)) :
    Yields (fun bs => ∀ b ∈ bs, Q b) (as.mapM f) := by
  intro bs hbs
  have all := mapM_eq_ok.1 hbs
  clear hbs
  induction all with
  | nil => simp
  | cons hb _ ih =>
    rw [forall_mem_cons] at hf ⊢
    exact ⟨hf.1 _ hb,ih hf.2⟩

end Yields

end Outcome
end Confidential
