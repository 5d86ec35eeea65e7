import Confidential.Analysis.Circuits
import Confidential.Typing.Fit

/-!
How functions are carried out.
-/

namespace Confidential

/-- Can a function of privacy `old` become one of privacy `new`? Between some of them nothing is said. -/
def Privacy.isAbove (new old : Privacy) : Option Bool :=
  if new = old then some false
  else match old, new with
    | .tee, _ => some false
    | .pub, _ => some true
    | .mpc, .tee => some true
    | .zkp, .mpc | .zkp, .tee => some true
    | _, _ => none

namespace Pass

def relatedContract (n : Node) : Pass Node := do
  let rec go : List Node → Pass Node
    | [] => throw .absent
    | m :: rest =>
      if m.isSource then return .omitted
      else if m.isContract then return m
      else go rest
  go (n :: (← get).ancestors n)

/-- Why a function is carried out in the trusted environment: the type that was found, the type that was
asked for, and where. -/
structure Cause where
  actual : Node := .omitted
  expected : Node := .omitted
  place : Node := .omitted

def Cause.describe (c : Cause) : Pass String := do
  if c.actual.isOmitted || c.expected.isOmitted || c.place.isOmitted then return ""
  let actual ← ask fun p => p.code c.actual
  let expected ← ask fun p => p.code c.expected
  let place ← ask fun p => p.code c.place
  return s!", because actual {actual} is incompatibale with expected {expected} in statement: {place}" ++
    ", thus being marked as MPT"

def raisePrivacy (f : Node) (cause : Cause := {}) : Pass Unit := do
  if !f.isFunction then throw .absent
  if (Privacy.isAbove .mpc ((← get).facts f).privacy).getD false then
    updateFacts f fun facts => { facts with privacy := .tee }
    if (← relatedContract f).isOmitted then throw .absent
    let name ← ofOutcome (Program.nameText f)
    emit (s!"function {name} is setted to 'MPT'" ++ (← cause.describe) ++ "\n")

def raiseAround (n : Node) : Pass Unit := do
  raisePrivacy (← ask fun p => p.functionOf n)

def isPrivateOperation (p : Program) (n : Node) : Outcome Bool := do
  match n with
  | .reveal .. => return true
  | .cast _ _ value _ => p.isHidden value
  | .call _ callee _ _ =>
    if (callee matches .builtin ..) && p.isPrivateOperator callee then return true
    if ← p.isCast callee then p.isHidden n else return false
  | _ => return false

/-- Raises the functions around the private operations below a node. The parts of a private operation
are not searched. -/
def raiseDirectly (n : Node) : Pass Unit := do
  if n.isParameter || n matches .owner _ .all then return ()
  if ← ask fun p => isPrivateOperation p n then raiseAround n
  else
    ofOutcome n.ensureWalkable
    n.children.attach.forM fun ⟨c,_⟩ => raiseDirectly c
termination_by sizeOf n
decreasing_by exact Node.sizeOf_lt_child (by assumption)

def hasPrivateParameter (f : Node) : Outcome Bool :=
  match f with
  | .function _ _ parameters _ _ _ _ =>
    (parameters.getD []).foldlM (fun so d => match d with
      | .declaration _ _ _ type _ _ => do if so then return true else return !(← Program.isPublic type)
      | _ => .error .absent) false
  | _ => .error .absent

def setVerifiedOutside (f : Node) : Pass Unit :=
  updateFacts f fun facts => { facts with verifiedOutside := true }

/-- Raises a function that has private operations. -/
def classifyDirectly (f : Node) : Pass Unit := do
  match f with
  | .function _ _ _ _ _ body _ => if !body.isOmitted then raiseDirectly body
  | _ => throw .absent
  if f.canBeExternal then
    let privacy := ((← get).facts f).privacy
    if privacy == .zkp || privacy == .tee then setVerifiedOutside f
    else if ← ofOutcome (hasPrivateParameter f) then setVerifiedOutside f

def classifyIndirectly (f : Node) : Pass Unit := do
  let p ← get
  let facts := p.facts f
  if facts.privacy != .tee then
    if facts.called.any fun k => (p.functionFacts.getD k {}).privacy != .pub then
      raisePrivacy f
      if f.canBeExternal then setVerifiedOutside f

def checkInlining (n : Node) : Pass Unit := do
  if n.isParameter then return ()
  match n with
  | .call _ callee _ _ =>
    if ← ask fun p => p.runsFunction callee then
      let f ← ask fun p => p.target callee
      if ← ask fun p => p.isVerified f then
        if ((← get).facts f).isRecursive then
          refuse .illTyped callee "Non-inlineable call to recursive private function"
  | _ => pure ()
  ofOutcome n.ensureWalkable
  n.children.attach.forM fun ⟨c,_⟩ => checkInlining c
termination_by sizeOf n
decreasing_by exact Node.sizeOf_lt_child (by assumption)

def classify : Pass Unit := do
  (← get).routines.forM classifyDirectly
  (← get).routines.forM classifyIndirectly
  (← get).routines.forM checkInlining

end Pass
end Confidential
