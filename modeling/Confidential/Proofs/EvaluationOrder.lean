import Confidential.Proofs.EffectOrder

/-!
Operands that depend on the order of evaluation. Main statement: a conflict of two operands is refused as such
if and only if it is one that starts at the first operand.
-/

namespace Confidential

open List

namespace Operand

variable {os : List Operand}

/-- Two different operands have a value in common, one on each side. -/
def Share (f g : Operand → List Access) (os : List Operand) : Prop :=
  ∃ (i j : Nat) (a b : Operand), i ≠ j ∧ os[i]? = some a ∧ os[j]? = some b ∧ ∃ v ∈ f a, v ∈ g b

def Conflict (os : List Operand) : Prop :=
  Share (·.modified) (fun o => o.modified ++ o.read) os

def FirstModifiedAgain (os : List Operand) : Prop :=
  ∃ first rest, os = first :: rest ∧ ∃ o ∈ rest, ∃ v ∈ first.modified, v ∈ o.modified

theorem overlap_iff {xs ys : List Access} : overlap xs ys ↔ ∃ v ∈ xs, v ∈ ys := by
  simp [overlap]

/-- Nothing is ever noted: an operand that shares nothing adds nothing. -/
theorem modifiesAny_iff {vs : List Access} : modifiesAny vs os ↔ ∃ o ∈ os, ∃ v ∈ vs, v ∈ o.modified := by
  induction os with
  | nil => simp [modifiesAny]
  | cons o rest ih =>
    rw [modifiesAny]
    cases shared : vs.filter o.modified.contains with
    | nil =>
      have apart : ¬ ∃ v ∈ vs, v ∈ o.modified := by simpa using shared
      simp only [isEmpty_nil,Bool.not_true,Bool.false_or,append_nil,ih]
      rw [exists_mem_cons_iff,or_iff_right apart]
    | cons v _ =>
      have mem : v ∈ vs.filter o.modified.contains := shared ▸ mem_cons_self
      simp only [isEmpty_cons,Bool.not_false,Bool.true_or,true_iff]
      exact ⟨o,mem_cons_self,v,by simpa using mem⟩

theorem modifiesTwice_iff : modifiesTwice os ↔ FirstModifiedAgain os := by
  cases os with
  | nil => simp [modifiesTwice,FirstModifiedAgain]
  | cons => simp [modifiesTwice,FirstModifiedAgain,modifiesAny_iff]

theorem share_iff {f g : Operand → List Access} (distinct : (os.map (·.id)).Nodup) :
    Share f g os ↔ ∃ a ∈ os, ∃ b ∈ os, b.id ≠ a.id ∧ ∃ v ∈ f a, v ∈ g b := by
  constructor
  · rintro ⟨i,j,a,b,apart,at_i,at_j,shared⟩
    refine ⟨a,mem_of_getElem? at_i,b,mem_of_getElem? at_j,fun same => apart ?_,shared⟩
    obtain ⟨lt,rfl⟩ := List.getElem?_eq_some_iff.1 at_i
    obtain ⟨lt',rfl⟩ := List.getElem?_eq_some_iff.1 at_j
    have here : i < (os.map (·.id)).length := by simpa using lt
    have there : j < (os.map (·.id)).length := by simpa using lt'
    have ids : (os.map (·.id))[i] = (os.map (·.id))[j] := by rw [getElem_map,getElem_map,same]
    exact distinct.getElem_inj_iff.1 ids
  · rintro ⟨a,ha,b,hb,other,shared⟩
    obtain ⟨i,at_i⟩ := mem_iff_getElem?.1 ha
    obtain ⟨j,at_j⟩ := mem_iff_getElem?.1 hb
    refine ⟨i,j,a,b,?_,at_i,at_j,shared⟩
    rintro rfl
    cases at_i.symm.trans at_j
    exact other rfl

theorem modifiesRead_iff (distinct : (os.map (·.id)).Nodup) :
    modifiesRead os ↔ Share (·.modified) (·.read) os := by
  simp [share_iff distinct,modifiesRead,overlap_iff]

theorem FirstModifiedAgain.conflict (h : FirstModifiedAgain os) : Conflict os := by
  obtain ⟨first,rest,rfl,o,ho,v,hv,again⟩ := h
  obtain ⟨j,at_j⟩ := mem_iff_getElem?.1 ho
  exact ⟨0,j + 1,first,o,by simp,rfl,at_j,v,hv,mem_append_left _ again⟩

theorem not_again_of_length (h : os.length ≤ 1) : ¬ FirstModifiedAgain os := by
  rintro ⟨first,rest,rfl,o,ho,-⟩
  have := length_pos_of_mem ho
  rw [length_cons] at h
  omega

theorem not_share_of_length {f g : Operand → List Access} (h : os.length ≤ 1) : ¬ Share f g os := by
  rintro ⟨i,j,a,b,apart,at_i,at_j,-⟩
  obtain ⟨lt,-⟩ := List.getElem?_eq_some_iff.1 at_i
  obtain ⟨lt',-⟩ := List.getElem?_eq_some_iff.1 at_j
  omega

end Operand

namespace Program

open Operand

theorem checkOperands_eq {p : Program} {n : Node} {os : List Operand} (known : (operandsOf n).mapM p.operand = .ok os)
    (distinct : (os.map (·.id)).Nodup) :
    (FirstModifiedAgain os → p.checkOperands n = p.report n "" >>= fun _ => .error .unordered) ∧
    (¬ FirstModifiedAgain os → Share (·.modified) (·.read) os → p.checkOperands n = .error (.badValue none)) ∧
    (¬ FirstModifiedAgain os → ¬ Share (·.modified) (·.read) os → p.checkOperands n = .ok ()) := by
  have length : (operandsOf n).length = os.length := (Outcome.mapM_eq_ok.1 known).length_eq
  unfold checkOperands
  dsimp only
  rw [length,known]
  by_cases several : os.length > 1
  · simp only [several,if_true,← modifiesTwice_iff,← modifiesRead_iff distinct,bind,Except.bind,Operand.check]
    cases modifiesTwice os <;> cases modifiesRead os <;> simp
  · have few : os.length ≤ 1 := by omega
    simp only [several,if_false,not_again_of_length few,not_share_of_length few]
    simp [pure,Except.pure]

end Program

open Operand Program Pass

/-- Which conflicts of operands are refused for the order of evaluation, and what becomes of the others. -/
theorem conflicts_refused_iff {p : Program} {n : Node} {os : List Operand}
    (known : (operandsOf n).mapM p.operand = .ok os) (distinct : (os.map (·.id)).Nodup) :
    (FirstModifiedAgain os → p.checkOperands n = (p.report n "" >>= fun _ => .error .unordered)) ∧
    (¬ FirstModifiedAgain os → Share (·.modified) (·.read) os → p.checkOperands n = .error (.badValue none)) ∧
    (¬ FirstModifiedAgain os → ¬ Share (·.modified) (·.read) os → p.checkOperands n = .ok ()) ∧
    ∀ text, p.report n "" = .ok text →
      ((p.checkOperands n = .error .unordered ↔ Conflict os) ↔ (Conflict os → FirstModifiedAgain os)) := by
  obtain ⟨first,read,free⟩ := checkOperands_eq known distinct
  refine ⟨first,read,free,fun text reported => ?_⟩
  by_cases starts : FirstModifiedAgain os
  · have refused : p.checkOperands n = .error .unordered := by
      rw [first starts,reported]
      rfl
    simp [refused,starts,starts.conflict]
  · have passed : p.checkOperands n ≠ .error .unordered := by
      by_cases shared : Share (·.modified) (·.read) os
      · simp [read starts shared]
      · simp [free starts shared]
    simp [passed,starts]

/-- The second and the third argument of a call modify the same value. -/
def repeatedSteps : String :=
  "pragma cloak ^0.2.0;\ncontract C \x7b\n    uint x;\n    function g() public returns (uint) \x7b\n        x = 1;\n" ++
    "        return 1;\n    \x7d\n    function h(uint a, uint b, uint c) public \x7b\n    \x7d\n" ++
    "    function f() public \x7b\n        h(1, g(), g());\n    \x7d\n\x7d\n"

theorem repeatedSteps_passes : ∃ p q n os, Runs (loadLinked repeatedSteps) { Globals.base with settings := {} } () p ∧
    Runs findEffects p () q ∧ n ∈ q.tree.preorder ∧ (operandsOf n).mapM q.operand = .ok os ∧ (os.map (·.id)).Nodup ∧
    os.length = 3 ∧ Conflict os ∧ q.checkOperands n = .ok () := by
  have chars : repeatedSteps = String.ofList _ := append_eq_ofList (append_eq_ofList rfl rfl) rfl
  have evaluated : (loadLinked repeatedSteps).succeeds { Globals.base with settings := {} } (fun _ p =>
      findEffects.succeeds p fun _ q => q.tree.preorder.any fun n =>
        ((operandsOf n).mapM q.operand).toOption.any fun os => decide (os.map (·.id)).Nodup && os.length == 3 &&
          !modifiesTwice os && !modifiesRead os && modifiesTwice os.tail) = true := by
    rw [loadLinked,load_eq chars]
    decide +kernel
  obtain ⟨_,p,linked,evaluated⟩ := of_succeeds evaluated
  obtain ⟨_,q,analysed,evaluated⟩ := of_succeeds evaluated
  simp only [Option.any_eq_true,any_eq_true,Bool.and_eq_true,decide_eq_true_eq,beq_iff_eq,Bool.not_eq_true'] at evaluated
  obtain ⟨n,hn,os,known,⟨⟨⟨distinct,length⟩,first⟩,read⟩,later⟩ := evaluated
  have operands : (operandsOf n).mapM q.operand = .ok os := by
    cases asked : (operandsOf n).mapM q.operand with
    | error e => simp [asked,Except.toOption] at known
    | ok _ => simpa [asked,Except.toOption] using known
  refine ⟨p,q,n,os,linked,analysed,hn,operands,distinct,length,?_,?_⟩
  · obtain ⟨i,j,a,b,apart,at_i,at_j,shared⟩ := (modifiesTwice_iff.1 later).conflict
    rw [getElem?_tail] at at_i at_j
    exact ⟨i + 1,j + 1,a,b,by simpa using apart,at_i,at_j,shared⟩
  · refine (conflicts_refused_iff operands distinct).2.2.1 ?_ ?_
    · rw [← modifiesTwice_iff,first]
      decide
    · rw [← modifiesRead_iff distinct,read]
      decide

end Confidential
