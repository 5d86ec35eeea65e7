import Confidential.Analysis.Aliases
import Confidential.Analysis.CallGraph
import Confidential.Analysis.Secrets
import Confidential.Typing.Conversion

/-!
Functions with hidden values are carried out in a circuit.
-/

namespace Confidential

def Fault.isTyping : Fault → Bool
  | .illTyped _ | .mismatch _ | .unordered => true
  | _ => false

namespace Program

def inCircuit (p : Program) (n : Node) : Outcome Bool := do
  p.isVerified (← p.functionOf n)

def knownType (p : Program) (n : Node) : Outcome Node := do
  let t ← p.typeOf n
  if t.isOmitted then .error .absent else .ok t

def knownTypeName (p : Program) (n : Node) : Outcome Node := do
  match ← p.knownType n with
  | .annotated _ t _ _ => .ok t
  | _ => .error .absent

def isPrivateValue (p : Program) (n : Node) : Outcome Bool := do
  return !(← isPublic (← p.knownType n))

def isPrivateOperator (p : Program) (n : Node) : Bool :=
  p.privateOperators.getD n.id false

end Program

namespace Node

def isLiteralType : Node → Bool
  | .elementary _ t => t.isLiteral
  | _ => false

def computed : Node → List Node
  | .reveal _ value _ => [value]
  | n => n.children

theorem sizeOf_lt_of_mem_computed {c n : Node} (h : c ∈ n.computed) : sizeOf c < sizeOf n := by
  unfold computed at h
  split at h
  · simp_all
    omega
  · exact sizeOf_lt_child h

end Node

namespace Pass

/-- Notes that the function around an operation has no circuit, if the operation has none. -/
def circuitOfCall (n callee : Node) : Pass Unit := do
  if ← ask fun p => p.inCircuit n then
    match callee with
    | .builtin _ op =>
      if !(← get).isPrivateOperator callee then
        if op.isEquality || op == .conditional then throw .misused
        let f ← ask fun p => p.functionOf n
        updateFacts f fun facts => { facts with canBePrivate := facts.canBePrivate && op.canBePrivate }
    | _ => pure ()
  throw .misused

def isPlainStatement : Node → Bool
  | .assign .. | .variableStatement .. | .returnValue .. | .branch .. | .statements .. => true
  | _ => false

def circuitOfStatement (n : Node) : Pass Unit := do
  let f ← relatedFunction n
  if ← ask fun p => p.isVerified f then
    let f ← ask fun p => p.function n
    if f.isOmitted then throw .absent
    updateFacts f fun facts => { facts with canBePrivate := false }

def directCircuit (n : Node) : Pass Unit := do
  if n.isParameter then return ()
  match n with
  | .call _ callee _ _ => circuitOfCall n callee
  | _ => pure ()
  if n.isStatement && !isPlainStatement n then circuitOfStatement n
  else
    ofOutcome n.ensureWalkable
    n.computed.attach.forM fun ⟨c,_⟩ => directCircuit c
termination_by sizeOf n
decreasing_by exact Node.sizeOf_lt_of_mem_computed (by assumption)

def indirectCircuit (f : Node) : Pass Unit := do
  let p ← get
  let facts := p.facts f
  if facts.privacy == .zkp && facts.canBePrivate then
    if facts.called.any fun k => !(p.functionFacts.getD k {}).canBePrivate then
      updateFacts f fun facts => { facts with canBePrivate := false }

def setHidden (isHidden : Bool) (n : Node) : Pass Unit := do
  if n.isParameter then return ()
  match n with
  | .call _ callee _ _ =>
    if ← ask fun p => p.inCircuit n then
      if isHidden then
        if ← ask fun p => p.runsFunction callee then
          if ← ask fun p => do (← p.target callee).hasSideEffects then
            refuse .illTyped n
              "Expressions with side effects are not allowed inside private expressions"
  | _ => pure ()
  if n.isExpression then modify fun p => { p with hidden := p.hidden.insert n.id isHidden }
  ofOutcome n.ensureWalkable
  n.children.attach.forM fun ⟨c,_⟩ => setHidden isHidden c
termination_by sizeOf n
decreasing_by exact Node.sizeOf_lt_child (by assumption)

def checkPrivateCall (n callee : Node) : Pass Unit := do
  if !(← ask fun p => p.inCircuit n) then return ()
  if !(← ask fun p => p.isHidden n) then return ()
  if ← ask fun p => p.isCast callee then return ()
  let complain (message : String) : Pass Unit := refuse .illTyped n message
  let unfit := "Calls to functions with operations which cannot be expressed as a circuit are not " ++
    "allowed inside private expressions"
  match callee with
  | .builtin _ op =>
    let fits ← if op.canBePrivate then pure true
      else do pure (← ask fun p => p.knownTypeName n).isConstantType
    if op.isEquality || op == .conditional then throw .misused
    if !fits then complain unfit
  | _ =>
    if !callee.isLocation then return ()
    let f ← ask fun p => p.target callee
    if f.isOmitted then throw .violated
    if !((← ask fun p => p.knownTypeName f) matches .functionType ..) then throw .violated
    if !f.isFunction then throw .absent
    let facts := (← get).facts f
    if !facts.hasStaticBody then
      complain "Function calls to non static functions are not allowed inside private expressions"
    if !facts.canBePrivate then complain unfit

def checkPrivateCalls (n : Node) : Pass Unit := do
  match n with
  | .source .. => (← get).routines.attach.forM fun ⟨f,_⟩ => checkPrivateCallsIn f
  | n => checkPrivateCallsIn n
where
  checkPrivateCallsIn (n : Node) : Pass Unit := do
    if n.isParameter then return ()
    match n with
    | .call _ callee _ _ => checkPrivateCall n callee
    | _ => pure ()
    ofOutcome n.ensureWalkable
    n.children.attach.forM fun ⟨c,_⟩ => checkPrivateCallsIn c
  termination_by sizeOf n
  decreasing_by exact Node.sizeOf_lt_child (by assumption)

def belongsInCircuit (n : Node) : Pass Bool := do
  if (← ask fun p => p.typeOf n).isOmitted then throw .violated
  if (← get).settings.constantsInCircuit then
    if (← ask fun p => p.knownTypeName n).isLiteralType then return true
    match n with
    | .cast _ _ value _ => if (← ask fun p => p.knownTypeName value).isLiteralType then return true
    | _ => pure ()
  match ← attempt (checkPrivateCalls n) with
  | .ok () => return false
  | .error e => if e.isTyping then return false else throw e

def markReveal (n value owner : Node) : Pass Unit := do
  if (← get).insidePrivateBranch then
    let statement ← ask fun p => p.statement n
    let known ← before statement
    match ← ask fun p => p.label owner with
    | some x =>
      if !known.samePart x (.owner .me) then
        refuse .illTyped n
          "Revealing information to other parties is not allowed inside private if statements"
    | none =>
      refuse .illTyped n
        "Revealing information to other parties is not allowed inside private if statements"
  if ← ask fun p => p.isPrivateValue value then setHidden true n
  else
    let failed ← match ← attempt (setHidden true n) with
      | .ok () => pure false
      | .error e => if e.isTyping then pure true else throw e
    if failed then setHidden false value
    else if !(← belongsInCircuit value) then setHidden false value

def markBranch (n condition yes no : Node) : Pass Unit := do
  let f ← ask fun p => p.function n
  if ← ask fun p => p.isVerified f then
    if ← ask fun p => p.isPrivateValue condition then
      let modified ← ask fun p => p.modifiedBy yes
      let modified := modified ++ (← if no.isOmitted then pure [] else ask fun p => p.modifiedBy no)
      if !modified.isEmpty then throw .absent
      modify fun p => { p with insidePrivateBranch := true }
      setHidden true n

def markHere (n : Node) : Pass Unit := do
  match n with
  | .index _ _ key =>
    if ← ask fun p => p.inCircuit n then
      if ← ask fun p => p.isHidden n then
        if key.isOmitted then throw .absent
        if ← ask fun p => p.isPrivateValue key then throw .violated
        setHidden false key
  | .reveal _ value owner =>
    if ← ask fun p => p.inCircuit n then markReveal n value owner
  | .call _ callee _ _ =>
    if ← ask fun p => p.inCircuit n then
      if (callee matches .builtin ..) && (← get).isPrivateOperator callee then setHidden true n
      else if ← ask fun p => p.isCast callee then
        if ← ask fun p => p.isPrivateValue n then setHidden true n
  | .cast _ _ value _ =>
    if ← ask fun p => p.inCircuit n then
      if ← ask fun p => p.isPrivateValue value then setHidden true n
  | .branch _ condition yes no => markBranch n condition yes no
  | _ => return ()

def markCircuit (n : Node) : Pass Unit := do
  if n.isParameter then return ()
  let outside := (← get).insidePrivateBranch
  markHere n
  ofOutcome n.ensureWalkable
  n.computed.attach.forM fun ⟨c,_⟩ => markCircuit c
  if n matches .branch .. then modify fun p => { p with insidePrivateBranch := outside }
termination_by sizeOf n
decreasing_by exact Node.sizeOf_lt_of_mem_computed (by assumption)

def markCircuits : Pass Unit := do
  let outside := (← get).insidePrivateBranch
  modify fun p => { p with insidePrivateBranch := false }
  let r ← attempt ((← get).routines.forM markCircuit)
  modify fun p => { p with insidePrivateBranch := outside }
  ofOutcome r

def checkCircuits : Pass Unit := do
  (← get).routines.forM directCircuit
  (← get).routines.forM indirectCircuit
  markCircuits
  checkPrivateCalls (← get).tree

end Pass
end Confidential
