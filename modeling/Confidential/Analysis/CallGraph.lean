import Confidential.Analysis.SideEffects

/-!
Which functions a function calls, directly or through other functions, and whether the number of its
steps is known beforehand: a function with a loop, a recursive function and a function that calls such
a function have no static body.
-/

namespace Confidential

namespace CallGraph

def frontier (calls : Nat → List Nat) (known leaves : List Nat) : List Nat :=
  ((leaves.flatMap calls).filter fun f => f ∉ known).eraseDups

/-- Adds frontier after frontier to the known functions, until one is empty; at most `fuel` of them. -/
def extend (calls : Nat → List Nat) : Nat → List Nat → List Nat → List Nat
  | 0, known, _ => known
  | fuel + 1, known, leaves =>
    match frontier calls known leaves with
    | [] => known
    | new => extend calls fuel (known ++ new) new

/-- All functions that are reached from those in `start`, in the order of their discovery. -/
def close (calls : Nat → List Nat) (functions : Nat) (start : List Nat) : List Nat :=
  extend calls (functions + 1) start start

end CallGraph

namespace Program

/-- Is the node one of the functions, rather than a constructor? Only functions can be asked. -/
def isOrdinary (f : Node) : Outcome Bool :=
  if f.isFunction then .ok (Node.isFunctionOf .function f) else .error .absent

def functionOf (p : Program) (n : Node) : Outcome Node := do
  let f ← p.function (← p.statement n)
  if f.isOmitted then .error .absent else .ok f

end Program

namespace Pass

def updateFacts (f : Node) (change : FunctionFacts → FunctionFacts) : Pass Unit :=
  modify fun p => { p with functionFacts := p.functionFacts.insert f.id (change (p.facts f)) }

def addCall (n callee : Node) : Pass Unit := do
  let caller ← ask fun p => p.functionOf n
  updateFacts caller fun facts =>
    if callee.id ∈ facts.called then facts else { facts with called := facts.called ++ [callee.id] }

def directCalls (n : Node) : Pass Unit := do
  if n.isParameter then return ()
  match n with
  | .call _ callee _ _ =>
    if !(callee matches .builtin ..) && !(← ask fun p => p.isCast callee) then
      if !callee.isLocation then throw .violated
      let f ← ask fun p => p.target callee
      if !(← ofOutcome (Program.isOrdinary f)) then throw .violated
      addCall n f
  | .forLoop .. | .whileLoop .. =>
    let f ← ask fun p => p.function n
    if f.isOmitted then throw .absent
    updateFacts f fun facts => { facts with hasStaticBody := false }
  | _ => pure ()
  ofOutcome n.ensureWalkable
  n.children.attach.forM fun ⟨c,_⟩ => directCalls c
termination_by sizeOf n
decreasing_by exact Node.sizeOf_lt_child (by assumption)

def indirectCalls (f : Node) : Pass Unit := do
  let p ← get
  let called := CallGraph.close (fun k => (p.functionFacts.getD k {}).called) p.next (p.facts f).called
  updateFacts f fun facts => { facts with called }
  if f.id ∈ called then
    updateFacts f fun facts => { facts with isRecursive := true, hasStaticBody := false }

def inheritDynamicBody (f : Node) : Pass Unit := do
  let p ← get
  if (p.facts f).called.any fun k => !(p.functionFacts.getD k {}).hasStaticBody then
    updateFacts f fun facts => { facts with hasStaticBody := false }

def findCalls : Pass Unit := do
  (← get).routines.forM directCalls
  (← get).routines.forM indirectCalls
  (← get).routines.forM inheritDynamicBody

end Pass
end Confidential
