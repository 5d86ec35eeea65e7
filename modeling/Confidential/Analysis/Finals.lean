import Confidential.Analysis.SideEffects

/-!
Final state variables: the constructor has to assign each of them once, in every branch, and before
it is read.
-/

namespace Confidential

namespace Finals

abbrev Assigned : Type :=
  Option (List (Nat × Bool))

def mark (k : Nat) (entries : List (Nat × Bool)) : List (Nat × Bool) :=
  entries.map fun e => if e.1 = k then (k,true) else e

def lookup (entries : List (Nat × Bool)) (n : Node) : Outcome (Option Bool) :=
  if n.isHashable then .ok (if n.isOmitted then none else entries.lookup n.id) else .error .misused

def agree (yes no : List (Nat × Bool)) : Bool :=
  yes.all fun e => no.lookup e.1 == some e.2

def isFinalVariable : Node → Bool
  | .stateVariable _ _ keywords _ value _ => keywords.contains "final" && value.isOmitted
  | _ => false

end Finals

namespace Program
open Finals

def followFinals (p : Program) (s : Assigned) (n : Node) : Outcome Assigned := do
  match n with
  | .function .. => if Node.isFunctionOf .function n then return s else .error .violated
  | .assign _ _ left right _ =>
    let s ← p.followFinals s right
    match left with
    | .name .. =>
      let target ← p.target left
      match s with
      | none => .error .misused
      | some entries =>
        match ← lookup entries target with
        | none => return s
        | some true => .error (.illTyped (← p.report n "Tried to reassign final variable"))
        | some false => return some (mark target.id entries)
    | _ => return s
  | .branch _ condition yes no =>
    let s ← p.followFinals s condition
    if s.isNone then .error .absent
    let afterYes ← p.followFinals s yes
    let afterNo ← if no.isOmitted then pure s else p.followFinals s no
    if agree (afterYes.getD []) (afterNo.getD []) then return afterNo
    .error (.illTyped (← p.report n "Final value is not assigned in both branches"))
  | .name .. =>
    match s with
    | none => return s
    | some entries =>
      if p.isLeftValue n then return s
      match ← lookup entries (← p.target n) with
      | some false =>
        let text ← p.code n
        .error (.illTyped (← p.report n
          (text ++ " is reading \"final\" state variable before writing it")))
      | _ => return s
  | n =>
    n.ensureWalkable
    n.children.attach.foldlM (fun s ⟨c,_⟩ => p.followFinals s c) s
termination_by sizeOf n
decreasing_by all_goals first | exact Node.sizeOf_lt_child (by assumption) | decreasing_tactic

def finalsOf (contract : Node) : List Node :=
  contract.stateVariables.filter isFinalVariable

def assignedBy (p : Program) (contract : Node) : Outcome Assigned := do
  let start := some ((finalsOf contract).map fun v => (v.id,false))
  match contract.constructors with
  | [] => return start
  | [.function _ _ _ _ _ body _] => if body.isOmitted then return start else p.followFinals start body
  | _ => .error .violated

def checkContractFinals (p : Program) (contract : Node) : Outcome Unit := do
  let done ← p.assignedBy contract
  match (finalsOf contract).find? fun v => (done.getD []).lookup v.id == some false with
  | some v => .error (.illTyped (← p.report v "Did not set all final state variables"))
  | none => return ()

def checkFinals (p : Program) : Outcome Unit :=
  p.tree.children.forM fun n => do
    if n.isContract then p.checkContractFinals n
    else let _ ← p.followFinals none n

end Program
end Confidential
