import Confidential.Analysis.SideEffects

/-!
Where return statements may stand, and how many statements there are.
-/

namespace Confidential.Program

def isLastOf (n : Node) (body : List Node) : Bool :=
  match body.getLast? with
  | some last => last.id = n.id
  | none => false

def checkReturn (p : Program) (n : Node) : Outcome Unit := do
  match ← p.parent n with
  | .statements i (.block single) body =>
    let outer ← p.parent (.statements i (.block single) body)
    if !(isLastOf n body && outer.isFunction && !Node.isFunctionOf .constructor outer) then
      .error (.misplacedReturn
        (← p.report n "Return statements are only allowed at the end of a function."))
  | _ => .error .violated

def checkReturns (p : Program) : Outcome Unit :=
  p.tree.preorder.forM fun n => match n with
    | .returnValue .. => p.checkReturn n
    | _ => .ok ()

def countStatements (n : Node) : Nat :=
  n.preorder.countP fun m => m.isStatement && !m.isBlock

end Confidential.Program
