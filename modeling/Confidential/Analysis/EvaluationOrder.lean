import Confidential.Analysis.SideEffects

/-!
Operands whose evaluation order matters.
-/

namespace Confidential

structure Operand where
  id : Nat
  modified : List Access
  read : List Access
deriving Inhabited

namespace Operand

def overlap (xs ys : List Access) : Bool :=
  xs.any ys.contains

/-- What an operand shares with the values modified so far is noted with them. -/
def modifiesAny (modified : List Access) : List Operand → Bool
  | [] => false
  | o :: rest =>
    let shared := modified.filter o.modified.contains
    !shared.isEmpty || modifiesAny (modified ++ shared) rest

def modifiesTwice : List Operand → Bool
  | [] => false
  | first :: rest => modifiesAny first.modified rest

def modifiesRead (operands : List Operand) : Bool :=
  operands.any fun a => operands.any fun b => b.id ≠ a.id && overlap a.modified b.read

def check (operands : List Operand) : Outcome Unit :=
  if modifiesTwice operands then .error .unordered
  else if modifiesRead operands then .error (.badValue none)
  else .ok ()

end Operand

namespace Program

def operand (p : Program) (n : Node) : Outcome Operand := do
  return { id := n.id, modified := ← p.modifiedBy n, read := ← p.readBy n }

def operandsOf (n : Node) : List Node :=
  match n with
  | .call _ (.builtin _ op) (.arguments _ values _) _ => if op.hasShortCircuit then [] else values
  | .call _ _ (.arguments _ values _) _ => values
  | .call .. => []
  | .assign .. => n.children
  | n => if n.isExpression then n.children else []

def checkOperands (p : Program) (n : Node) : Outcome Unit := do
  let operands := operandsOf n
  if operands.length > 1 then
    match Operand.check (← operands.mapM p.operand) with
    | .error .unordered =>
      let _ ← p.report n ""
      .error .unordered
    | r => r

def checkEvaluationOrder (p : Program) (n : Node) : Outcome Unit := do
  n.ensureWalkable
  n.children.attach.forM fun ⟨c,_⟩ => p.checkEvaluationOrder c
  p.checkOperands n
termination_by sizeOf n
decreasing_by exact Node.sizeOf_lt_child (by assumption)

end Program
end Confidential
