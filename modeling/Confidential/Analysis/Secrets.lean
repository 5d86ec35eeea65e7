import Confidential.Analysis.SideEffects

/-!
Private values: whether a tree has any, and whether an expression in it is evaluated privately.
-/

namespace Confidential

namespace Program

def isHidden (p : Program) (n : Node) : Outcome Bool :=
  match p.hidden[n.id]? with
  | some b => .ok b
  | none => if n.isExpression && !n.isBare then .ok false else .error .absent

def isVerified (p : Program) (f : Node) : Outcome Bool :=
  if f.isFunction then .ok ((p.facts f).privacy == .zkp) else .error .absent

def ownerOf : Node → Outcome Node
  | .annotated _ _ _ owner => .ok owner
  | _ => .error .absent

def isPublic (type : Node) : Outcome Bool := do
  return (← ownerOf type) matches .owner _ .all

def containsPrivate (p : Program) (n : Node) : Outcome Bool := do
  let found ← n.preorder.mapM fun m => match p.typeOf m with
    | .error _ | .ok .omitted => Except.ok false
    | .ok (.annotated _ _ _ owner) => .ok !(owner matches .owner _ .all)
    | .ok _ => .error Fault.violated
  return found.any id

/-- Is an expression evaluated privately, or a function called that has to be verified? `found` tells
whether one was found before; then the nodes are still looked at, but not their parts. -/
def findHidden (p : Program) (found : Bool) (n : Node) : Outcome Bool := do
  let found ← match n with
    | .call _ callee _ _ =>
      if ← p.runsFunction callee then do pure ((← p.isVerified (← p.target callee)) || found)
      else pure found
    | _ => pure found
  let found ← if n.isExpression && !n.isTypeName then do pure ((← p.isHidden n) || found)
    else pure found
  if found then return true
  n.ensureWalkable
  n.children.attach.foldlM (fun found ⟨c,_⟩ => p.findHidden found c) false
termination_by sizeOf n
decreasing_by exact Node.sizeOf_lt_child (by assumption)

def containsHidden (p : Program) (n : Node) : Outcome Bool :=
  if n.isOmitted then .ok false else p.findHidden false n

def checkLoopPart (p : Program) (part : String) (n : Node) : Outcome Unit := do
  if ← p.containsHidden n then
    .error (.illTyped (← p.report n s!"Loop {part} cannot contain private expressions"))

def checkLoops (p : Program) (n : Node) : Outcome Unit := do
  if n.isParameter then return ()
  match n with
  | .whileLoop _ condition body | .doWhileLoop _ body condition =>
    p.checkLoopPart "condition" condition
    p.checkLoopPart "body" body
  | .forLoop _ _ condition update body =>
    p.checkLoopPart "condition" condition
    p.checkLoopPart "body" body
    p.checkLoopPart "update statement" update
  | _ => pure ()
  n.ensureWalkable
  n.children.attach.forM fun ⟨c,_⟩ => p.checkLoops c
termination_by sizeOf n
decreasing_by exact Node.sizeOf_lt_child (by assumption)

end Program
end Confidential
