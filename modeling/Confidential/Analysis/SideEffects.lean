import Confidential.Effects

/-!
Expressions and statements with side effects: those with an assignment, or with a call of a function
that is neither pure nor a view.
-/

namespace Confidential

def Node.isConverter : Node → Bool
  | .contract .. | .enum .. | .arrayType .. => true
  | _ => false

namespace Program

def isCast (p : Program) (callee : Node) : Outcome Bool := do
  if callee.isLocation then return (← p.target callee).isConverter
  return false

def runsFunction (p : Program) (callee : Node) : Outcome Bool := do
  return callee.isLocation && !(← p.isCast callee)

def ownSideEffect (p : Program) (n : Node) : Outcome Bool := do
  match n with
  | .assign .. => return true
  | .call _ callee _ _ =>
    if ← p.runsFunction callee then (← p.target callee).hasSideEffects else return false
  | _ => return false

def hasSideEffects (p : Program) (n : Node) : Outcome Bool := do
  n.ensureWalkable
  let inner ← n.children.attach.mapM fun ⟨c,_⟩ => p.hasSideEffects c
  return (← p.ownSideEffect n) || inner.any id
termination_by sizeOf n
decreasing_by exact Node.sizeOf_lt_child (by assumption)

end Program
end Confidential
