import Confidential.Effects
import Confidential.Policy

/-!
The privacy policy of a program.
-/

namespace Confidential

variable (p : Program)

namespace Node

def isIndex : Node → Bool
  | .index .. => true
  | _ => false

def postorder (n : Node) : List Node :=
  (n.children.attach.flatMap fun ⟨c,_⟩ => c.postorder) ++ [n]
termination_by sizeOf n
decreasing_by exact sizeOf_lt_child (by assumption)

end Node

namespace Program

def outermostIndex (n : Node) : Node :=
  (((p.ancestors n).takeWhile (·.isIndex)).getLast?).getD n

def indexPath (p : Program) : Node → Outcome (Node × List String)
  | .index _ base key => do
    if key.isOmitted then .error .absent
    let k ← p.solidity key
    let (root,keys) ← p.indexPath base
    return (root,keys ++ [if k == "me" then "msg.sender" else k])
  | n => .ok (n,[])

def joinKeys (keys : List String) : String :=
  keys.foldr (fun k rest => if rest.isEmpty then k else k ++ ":" ++ rest) ""

def visitedMapping (n : Node) : Outcome (Node × String) := do
  let (root,keys) ← p.indexPath (p.outermostIndex n)
  return (← p.target root,joinKeys keys)

end Program

namespace FunctionPolicy

def addIndexed (s : Section) (via : Node) : Change Unit := do
  let (var,key) ← Pass.lift (p.visitedMapping via)
  let _ ← add p s var key

/-- The policy of a function from its effects; `reads` lists what it reads in any order. -/
def build (parameters results : List Node) (reads writes : List Access) :
    Change Unit := do
  parameters.forM fun v => do let _ ← add p .inputs v ""
  reads.forM fun a => do
    let target := p.accessTarget a
    let via := (a.via.map p.node).getD .omitted
    if target.isStateVariable && target.declaredType.isMapping && via.isIndex then
      addIndexed p .read via
  writes.forM fun a => do
    let target := p.accessTarget a
    let via := (a.via.map p.node).getD .omitted
    if target.isStateVariable && !target.declaredType.isPrimitive && via.isIndex then
      addIndexed p .mutate via
  results.forM fun v => do let _ ← add p .outputs v ""
  setSelector

def ofFunction (n : Node) : Outcome FunctionPolicy := do
  match n with
  | .function _ _ parameters _ results _ _ =>
    let start : FunctionPolicy := { name := ← Program.nameText n, privacy := (p.facts n).privacy }
    match (build p (parameters.getD []) results (p.read.getD n.id []) (p.modified.getD n.id [])).run start with
    | (.ok (),f) => return f
    | (.error e,_) => .error e
  | _ => .error .absent

end FunctionPolicy

namespace PrivacyPolicy

/-- What a node adds to the policy. The last contract gives it its name. -/
def visit (policy : PrivacyPolicy) (n : Node) : Outcome PrivacyPolicy := do
  match n with
  | .stateVariable .. => return { policy with states := policy.states ++ [← StateEntry.ofVariable p n] }
  | .function .. => return { policy with functions := policy.functions ++ [← FunctionPolicy.ofFunction p n] }
  | .contract .. => return { policy with contract := ← Program.nameText n }
  | _ => return policy

def ofProgram : Outcome PrivacyPolicy := do
  let policy ← p.tree.postorder.foldlM (visit p) {}
  if p.contracts.isEmpty then .error .absent
  return policy.sortStates

end PrivacyPolicy
end Confidential
