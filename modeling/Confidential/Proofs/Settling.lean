import Confidential.Proofs.ErasedTypes

/-!
Erasing annotations comes to an end on every text: each round of a loop leaves fewer owners, callers or brackets.
-/

namespace Confidential.Text

open List

/-- The rounds that start with `s` come to an end at `t`. -/
inductive Settles (step? : String → Option String) : String → String → Prop where
  | stop {s : String} : step? s = none → Settles step? s s
  | round {s t u : String} : step? s = some t → Settles step? t u → Settles step? s u

theorem settles_settle {step? : String → Option String} {size : List Char → Nat} (bounded : ∀ cs, size cs ≤ cs.length)
    (less : ∀ {s t}, step? s = some t → size t.toList < size s.toList) (s : String) :
    Settles step? s (settle step? (s.length + 1) s) := by
  have enough : size s.toList < s.length + 1 := Nat.lt_succ_of_le (String.length_toList ▸ bounded _)
  generalize s.length + 1 = fuel at enough
  induction fuel generalizing s with
  | zero => omega
  | succ _ ih =>
    rw [settle]
    split
    next t found =>
      have := less found
      exact .round found (ih t (by omega))
    next ended => exact .stop ended

variable {cs : List Char}

theorem infix_ownerIn {owner : List Char} (found : ownerIn? cs = some owner) : '@' :: owner <:+: cs := by
  fun_induction ownerIn? cs with
  | case1 => cases found
  | case2 =>
    cases found
    exact (cons_prefix_cons.2 ⟨rfl, takeWhile_prefix _⟩).isInfix
  | case3 => cases found
  | case4 _ _ _ ih => exact infix_cons (ih found)

theorem count_eraseOwner {s t : String} (erased : eraseOwner? s = some t) : t.toList.count '@' < s.toList.count '@' := by
  obtain ⟨owner,found,rfl⟩ := Option.map_eq_some_iff.1 erased
  obtain ⟨k,marks,pos,-⟩ := exists_count_replace (show '@' :: owner ≠ [] by simp) [] s.toList
  obtain ⟨n,labels,-⟩ := exists_count_replace (show '!' :: owner ≠ [] by simp) [] (replaceFrom ('@' :: owner) [] 0 s.toList)
  have marks := marks (· == '@')
  have labels := labels (· == '@')
  have pos := pos.1 (infix_ownerIn found)
  have mark : ("@" ++ String.ofList owner).toList = '@' :: owner := by simp
  have label : ("!" ++ String.ofList owner).toList = '!' :: owner := by simp
  dsimp only
  rw [toList_replace (by simp),toList_replace (by simp),mark,label,count_eq_countP,count_eq_countP]
  simp only [countP_cons,countP_nil,beq_self_eq_true,if_true,Nat.mul_add] at marks labels
  change countP _ (replaceFrom _ [] 0 (replaceFrom _ [] 0 _)) < _
  omega

/-- The number of places where `me` stands, be it inside of a word. -/
def callers : List Char → Nat
  | [] => 0
  | c :: rest => callers rest + if c = 'm' ∧ rest.head? = some 'e' then 1 else 0

theorem callers_le_length (cs : List Char) : callers cs ≤ cs.length := by
  induction cs with
  | nil => exact le_rfl
  | cons =>
    rw [callers,length_cons]
    split <;> omega

/-- What is written starts with the character that was there, so that no new caller comes up before it. -/
theorem callers_replaceFrom {b : Char} {a : Option Char} (before : b ≠ 'm') (after : a ≠ some 'm') (cs : List Char) :
    let t := replaceFrom ([b] ++ ("me".toList ++ a.toList)) ([b] ++ ("msg.sender".toList ++ a.toList)) 0 cs
    t.head? = cs.head? ∧ callers t ≤ callers cs ∧ ([b] ++ ("me".toList ++ a.toList) <:+: cs → callers t < callers cs) := by
  intro t
  induction h : cs.length using Nat.strong_induction_on generalizing cs with
  | _ _ ih =>
    subst h t
    by_cases here : [b] ++ ("me".toList ++ a.toList) <+: cs
    · obtain ⟨rest,rfl⟩ := here
      obtain ⟨-,less,-⟩ := ih rest.length (by simp; omega) rest rfl
      rw [replaceFrom_append (by simp)]
      generalize replaceFrom _ _ 0 rest = t at less ⊢
      have fewer : callers ([b] ++ ("msg.sender".toList ++ a.toList) ++ t) < callers ([b] ++ ("me".toList ++ a.toList) ++ rest) := by
        cases a with
        | none =>
          simp [callers,before]
          omega
        | some a =>
          have after : a ≠ 'm' := fun eq => after (congrArg some eq)
          simp [callers,before,after]
          omega
      exact ⟨rfl,fewer.le,fun _ => fewer⟩
    · cases cs with
      | nil => exact ⟨rfl,le_rfl,fun inside => absurd (infix_nil.1 inside) (by simp)⟩
      | cons _ cs =>
        obtain ⟨head,less,found⟩ := ih cs.length (by simp) cs rfl
        rw [replaceFrom_cons here,callers,callers,head]
        refine ⟨rfl,by omega,fun inside => ?_⟩
        have := found ((infix_cons_iff.1 inside).resolve_left here)
        omega

theorem callers_writeCaller {s t : String} (written : writeCaller? s = some t) : callers t.toList < callers s.toList := by
  obtain ⟨b,a,found,eq⟩ := toList_writeCaller written
  obtain ⟨inside,before,after⟩ := infix_of_callerIn? found
  rw [eq]
  exact (callers_replaceFrom before after s.toList).2.2 inside

theorem erasing_annotations_ends (s : String) :
    Settles eraseOwner? s (eraseOwners s) ∧ (s = "me" ∨ Settles writeCaller? s (writeCallers s)) ∧
      Settles eraseReveal? s (eraseReveals s) := by
  refine ⟨settles_settle (fun _ => count_le_length) count_eraseOwner s,?_,
    settles_settle (fun _ => count_le_length) (fun erased => (count_eraseReveal erased).2) s⟩
  by_cases only : s = "me"
  · exact .inl only
  · rw [writeCallers,if_neg (by simpa using only)]
    exact .inr (settles_settle callers_le_length callers_writeCaller s)

end Confidential.Text
