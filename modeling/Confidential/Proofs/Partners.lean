import Confidential.Compiler
import Mathlib.Order.Bounds.Basic

/-!
The partner of an opening bracket is the first place where as many brackets of its kind are closed as opened.
-/

namespace Confidential.Masking

open List

/-- The search for the least number of a set ends with this result. -/
def Least (s : Set Nat) : Option Nat → Prop
  | none => s = ∅
  | some n => IsLeast s n

theorem Least.shift {s t : Set Nat} {k : Nat} {found : Option Nat} (later : ∀ j ∈ s, k ≤ j) (same : ∀ n, n + k ∈ s ↔ n ∈ t)
    (h : Least t found) : Least s (found.map (· + k)) := by
  cases found with
  | none =>
    refine Set.eq_empty_of_forall_notMem fun j mem => ?_
    obtain ⟨n,rfl⟩ := Nat.exists_eq_add_of_le' (later j mem)
    exact Set.eq_empty_iff_forall_notMem.1 h n ((same n).1 mem)
  | some n =>
    refine ⟨(same n).2 h.1,fun j mem => ?_⟩
    obtain ⟨m,rfl⟩ := Nat.exists_eq_add_of_le' (later j mem)
    exact Nat.add_le_add_right (h.2 ((same m).1 mem)) k

/-- The places where all brackets are closed, if `depth` of them are open at the start. -/
def closings (b : Bracket) (depth : Nat) (cs : List Char) : Set Nat :=
  {n | n < cs.length ∧ (cs.take (n + 1)).count b.closing = (cs.take (n + 1)).count b.opening + depth}

/-- The places behind `i` where as many brackets are closed as opened, from `i` on. -/
def partners (b : Bracket) (cs : List Char) (i : Nat) : Set Nat :=
  {j | i < j ∧ j < cs.length ∧ ((cs.take (j + 1)).drop i).count b.closing = ((cs.take (j + 1)).drop i).count b.opening}

theorem Bracket.opening_ne_closing (b : Bracket) : b.opening ≠ b.closing := by
  cases b <;> decide

variable {b : Bracket} {cs : List Char} {i : Nat}

theorem closings_cons {c : Char} {d d' : Nat} (pos : 0 < d') (step : d' + [c].count b.closing = d + [c].count b.opening)
    (rest : List Char) (h : Least (closings b d' rest) (closingDistance? b d' rest)) :
    Least (closings b d (c :: rest)) ((closingDistance? b d' rest).map (· + 1)) := by
  refine h.shift ?_ fun n => ?_
  · rintro (- | j) mem
    · have closed : [c].count b.closing = [c].count b.opening + d := mem.2
      omega
    · omega
  · have split (a : Char) : ((c :: rest).take (n + 1 + 1)).count a = (rest.take (n + 1)).count a + [c].count a := by
      rw [take_succ_cons,← singleton_append,count_append,Nat.add_comm]
    simp only [closings,Set.mem_ofPred_eq,split,length_cons]
    omega

theorem least_closingDistance (b : Bracket) {d : Nat} (pos : 0 < d) (cs : List Char) :
    Least (closings b d cs) (closingDistance? b d cs) := by
  have differ := b.opening_ne_closing
  induction cs generalizing d with
  | nil => simp [closingDistance?,Least,closings]
  | cons _ rest ih =>
    rw [closingDistance?]
    split
    next closes =>
      subst closes
      split
      next last =>
        refine ⟨⟨by simp,?_⟩,fun _ _ => Nat.zero_le _⟩
        simp [differ.symm]
        omega
      next further =>
        refine closings_cons (by omega) ?_ rest (ih (by omega))
        simp [differ.symm]
        omega
    next other =>
      split
      next opens =>
        subst opens
        exact closings_cons (Nat.succ_pos d) (by simp [differ]) rest (ih (Nat.succ_pos d))
      next plain => exact closings_cons pos (by simp [other,plain]) rest (ih pos)

theorem least_partners (opened : cs[i]? = some b.opening) :
    Least (partners b cs i) ((closingDistance? b 1 (cs.drop (i + 1))).map (· + (i + 1))) := by
  obtain ⟨within,eq⟩ := List.getElem?_eq_some_iff.1 opened
  refine (least_closingDistance b Nat.one_pos _).shift (fun _ mem => mem.1) fun n => ?_
  have between : (cs.take (n + (i + 1) + 1)).drop i = b.opening :: (cs.drop (i + 1)).take (n + 1) := by
    rw [drop_take,drop_eq_getElem_cons within,eq,show n + (i + 1) + 1 - i = n + 1 + 1 by omega,take_succ_cons]
  simp [partners,closings,between,b.opening_ne_closing]
  omega

theorem pairDistance?_eq_none (depth : Nat) (cs : List Char) : pairDistance? depth cs = none := by
  induction cs generalizing depth with
  | nil => rfl
  | cons _ _ ih => simp [pairDistance?,ih]

theorem partner_eq (opened : cs[i]? = some b.opening) :
    partner cs i = if b = .square then .error .absent
      else ((closingDistance? b 1 (cs.drop (i + 1))).map (· + (i + 1))).elim (.error .absent) (.ok ↑·) := by
  have kind : Bracket.ofOpening? b.opening = some b := by cases b <;> rfl
  have found : partner cs i = (partnerAt b i cs).map Int.ofNat := by
    have : ¬ (i : Int) < 0 := by omega
    simp [partner,this,opened,kind]
  rw [found,partnerAt]
  cases b with
  | square => simp [closing?,pairDistance?_eq_none,Except.map]
  | round | curly =>
    rw [if_neg (by simp),closing?]
    · cases closingDistance? _ 1 (cs.drop (i + 1)) with
      | none => rfl
      | some => exact congrArg (Except.ok ∘ Int.ofNat) (Nat.add_comm ..)
    · simp

theorem partner_balances_iff (opened : cs[i]? = some b.opening) :
    (∀ j, partner cs i = .ok j ↔ b ≠ .square ∧ ∃ k : Nat, j = k ∧ IsLeast (partners b cs i) k) ∧
      (partner cs i = .error .absent ↔ b = .square ∨ partners b cs i = ∅) := by
  rw [partner_eq opened]
  have least := least_partners opened
  split
  next square => simp [square]
  next other =>
    cases found : (closingDistance? b 1 (cs.drop (i + 1))).map (· + (i + 1)) with
    | none =>
      rw [found] at least
      have void : partners b cs i = ∅ := least
      simp [void,IsLeast]
    | some k =>
      rw [found] at least
      have least : IsLeast (partners b cs i) k := least
      refine ⟨fun j => ?_,?_⟩
      · constructor
        · rintro ⟨⟩
          exact ⟨other,k,rfl,least⟩
        · rintro ⟨-,n,rfl,first⟩
          rw [first.unique least]
          rfl
      · simp [other,(Set.nonempty_of_mem least.1).ne_empty]

theorem partner_square : partner "[a]".toList (0 : Nat) = .error .absent :=
  (partner_balances_iff (b := .square) rfl).2.2 (.inl rfl)

end Confidential.Masking
