import Confidential.Analysis.Finals
import Confidential.Typing.Classification

/-!
Typing rules, node by node.
-/

namespace Confidential

inductive Purpose where
  | check
  | classify
deriving DecidableEq

namespace Pass

def setType (n type : Node) : Pass Unit := do
  let type ← register type
  modify fun p => { p with types := p.types.insert n.id type }

def typeText (type : Node) : Pass String :=
  if type.isOmitted then return "None" else ask fun p => p.code type

def mismatch {α : Type} (expected actual n : Node) : Pass α := do
  let asked ← typeText expected
  let found ← typeText actual
  refuse .mismatch n s!"Expected type {asked} but got {found}"

def illTyped {α : Type} (n : Node) (message : String) : Pass α :=
  refuse .illTyped n message

def inEnvironment (n : Node) : Pass Bool := do
  if n.isOmitted then throw .absent
  let f ← relatedFunction n
  if !f.isFunction then throw .absent
  return ((← get).facts f).privacy == .tee

def expectFit (fit : Bool) (around expected actual n : Node) : Pass Unit := do
  if !fit then
    if !(← inEnvironment around) then mismatch expected actual n

def fitOf (n expected : Node) : Pass Fit := do
  if !n.isExpression then throw .absent
  ask fun p => p.fits n expected

def makePrivate (owner : Node) : Pass Node := do
  if (← ask fun p => p.label owner).isNone then throw .violated
  throw .absent

def convert (n : Node) : Pass Node := do
  if !(← ask fun p => p.typeNameOf n).isPrimitive then throw .violated
  throw .absent

def noteFit (expected value place : Node) (fit : Fit) (isReveal : Bool := false) : Pass Unit := do
  let actual ← ask fun p => p.typeOf value
  if place.isOmitted then throw .absent
  let f ← relatedFunction place
  if f.isFunction then
    let own ← ofOutcome (Program.ownerOf actual)
    let _ ← ofOutcome (Program.ownerOf expected)
    if isReveal || fit != .yes || (own matches .owner _ .tee) then
      raisePrivacy f { actual, expected, place }

/-- A value where the expected type is asked for. The elements of a tuple are taken one by one. -/
def rightSide (purpose : Purpose) (value expected : Node) : Pass Node := do
  match value with
  | .tuple _ elements =>
    match expected with
    | .annotated _ (.tupleType _ types) _ _ =>
      if types.length ≠ elements.length then mismatch expected (← ask fun p => p.typeOf value) value
      (elements.attach.zip types).forM fun (⟨e,_⟩,t) => do
        let _ ← rightSide purpose e t
      throw .unavailable
    | .annotated .. => mismatch expected (← ask fun p => p.typeOf value) value
    | _ => throw .absent
  | value =>
    let fit ← fitOf value expected
    match purpose with
    | .classify =>
      noteFit expected value (← ask fun p => p.parent value) fit
      return value
    | .check =>
      expectFit (fit != .no) value expected (← ask fun p => p.typeOf value) value
      match expected with
      | .annotated _ type _ owner =>
        let actual ← ask fun p => p.typeNameOf value
        if !(← ask fun p => p.same actual type) then convert value
        else if fit == .byHiding then makePrivate owner
        else return value
      | _ => throw .absent
termination_by sizeOf value

def checkFinal (f left : Node) : Pass Unit := do
  match left with
  | .name .. =>
    match ← ask fun p => p.target left with
    | .stateVariable _ _ keywords _ _ _ =>
      if keywords.contains "final" then
        if !f.isFunction then throw .absent
        if !Node.isFunctionOf .constructor f then illTyped left "Modifying \"final\" variable"
    | .declaration _ _ keywords _ _ _ =>
      if keywords.contains "final" then illTyped left "Modifying \"final\" variable"
    | _ => return ()
  | .tuple _ elements => elements.attach.forM fun ⟨e,_⟩ => checkFinal f e
  | _ => throw .violated
termination_by sizeOf left

def checkHideable (n : Node) : Pass Unit := do
  let type ← match (← get).typeOf n with
    | .ok t => pure t
    | .error _ => throw .violated
  match type with
  | .annotated _ t _ owner =>
    if !(owner matches .owner _ .all) then
      if !(← ofOutcome t.canBePrivate) then
        let text ← ask fun p => p.code t
        illTyped type s!"Type {text} cannot be private"
  | _ => throw .absent

def castType (purpose : Purpose) (value : Node) : Pass Node := do
  if ← ask fun p => p.isPrivateValue value then
    if purpose == .check then
      let type ← ask fun p => p.typeOf value
      let expected := Node.ownedBy (← ask fun p => p.typeNameOf value) (.owner {} .me)
      expectFit ((← fitOf value expected) != .no) value expected type value
  throw .absent

def makePrivateOnce (n : Node) : Pass Node := do
  if ← ask fun p => p.isPrivateValue n then
    let type ← ask fun p => p.typeOf n
    let expected := Node.ownedBy (← ask fun p => p.typeNameOf n) (.owner {} .me)
    expectFit ((← fitOf n expected) != .no) n expected type n
    return n
  else makePrivate (.owner {} .me)

def typeOfCall (n callee : Node) (purpose : Purpose) : Pass Unit := do
  match callee with
  | .builtin _ op =>
    if purpose == .check && (op == .conditional || op == .parenthesis) then return ()
    throw .misused
  | _ =>
    if ← ask fun p => p.isCast callee then
      if !((← ask fun p => p.target callee) matches .enum ..) then
        throw (.unsupported (some "User type casts only implemented for enums"))
      throw .misused
    else if callee.isLocation then
      match ← ask fun p => p.typeNameOf callee with
      | .functionType .. => throw .misused
      | _ => throw .absent
    else illTyped n "Invalid function call"

def typeOfReveal (n value owner : Node) (purpose : Purpose) : Pass Unit := do
  if purpose == .check then
    if (← ask fun p => p.label owner).isNone then
      illTyped n "Second argument of \"reveal\" cannot be used as a privacy type"
  setType n (.annotated {} (← ask fun p => p.typeNameOf value) true owner)
  if purpose == .check then
    let valueType ← ask fun p => p.typeOf value
    if (← fitOf n valueType) == .yes then
      let text ← ask fun p => p.code owner
      illTyped n s!"Redundant \"reveal\": Expression is already \"@{text}\""
    checkHideable n

def typeOfIndex (n base key : Node) (purpose : Purpose) : Pass Unit := do
  match ← ask fun p => p.knownType base with
  | .annotated i (.mapping m keyType label value) written owner =>
    let expected := Node.ownedBy keyType (.owner {} .all)
    let fit ← fitOf key expected
    if purpose == .check then
      expectFit (fit != .no) n expected (← ask fun p => p.typeOf key) n
    if !label.isOmitted then
      if (← ask fun p => p.label key).isNone then
        let text ← ask fun p => p.code (.annotated i (.mapping m keyType label value) written owner)
        illTyped n s!"Index cannot be used as a privacy type for array of type {text}"
      modify fun p => { p with keys := p.keys.insert m.id key.id }
    setType n value
  | .annotated _ (.arrayType i value size) _ owner =>
    if key.isOmitted then throw .absent
    if ← ask fun p => p.isPrivateValue key then illTyped n "No private array index"
    if !(← ask fun p => p.fitsType key Node.numberType) then illTyped n "Array index must be numeric"
    match purpose with
    | .check =>
      if !value.isTypeName then throw .absent
      setType n (.annotated {} value true owner)
    | .classify => setType n (.annotated {} (.arrayType i value size) true owner)
  | .annotated .. => illTyped n "Indexing into non-mapping"
  | _ => throw .absent

def typeOfEnum (n : Node) (kind : UserKind) : Pass Unit := do
  let p ← get
  let names ← ofOutcome (p.qualifiedName n)
  let type ← register (Program.publicType (.userType {} kind (names.map p.node)))
  match type with
  | .annotated _ (.userType i ..) _ _ =>
    modify fun p => { p with links := { p.links with targets := p.links.targets.insert i.id n.id } }
  | _ => return ()
  setType n type

def typeOfReturn (n value : Node) (purpose : Purpose) : Pass Unit := do
  match ← ask fun p => p.function n with
  | .function _ _ _ _ results _ kind =>
    if kind != .function then throw .violated
    let types ← results.mapM fun r => ask fun p => p.typeOf r
    let expected := Program.publicType (.tupleType {} types)
    let value ← match value with
      | .omitted => register (.tuple {} [])
      | .tuple .. => pure value
      | value => register (.tuple {} [value])
    let _ ← rightSide purpose value expected
  | _ => throw .absent

def typeOfStateVariable (n type value : Node) (purpose : Purpose) : Pass Unit := do
  if !value.isOmitted then
    if ← ask fun p => p.containsPrivate n then
      illTyped n "Private assignments to state variables must be in the constructor"
    let _ ← rightSide purpose value type
  if (← ofOutcome (Program.ownerOf type)) matches .owner _ .me then
    illTyped n "State variables cannot be annotated as me"

def checkOwner (owner : Node) : Pass Unit := do
  match ← ask fun p => p.target owner with
  | .mapping .. => return ()
  | .declaration _ _ keywords type _ _ | .stateVariable _ type keywords _ _ _ =>
    if !(keywords.contains "final" || keywords.contains "constant") then
      illTyped owner "Privacy annotations must be \"final\" or \"constant\", if they are expressions"
    if !(← ask fun p => p.same type (Program.publicType Node.addressType)) then
      let text ← ask fun p => p.code type
      illTyped owner s!"Privacy type is not a public address, but {text}"
  | _ => throw .absent

def checkAnnotated (type owner : Node) : Pass Unit := do
  match type with
  | .userType _ .plain _ =>
    if !((← ask fun p => p.target type) matches .enum ..) then
      illTyped type "Unsupported use of user-defined type"
    throw .absent
  | _ => pure ()
  if owner matches .name .. then checkOwner owner

def checkCondition (n condition : Node) : Pass Unit := do
  let expected := Program.publicType Node.boolType
  let fit ← fitOf condition expected
  expectFit (fit != .no) n expected (← ask fun p => p.typeOf condition) condition

def checkBranch (n condition : Node) : Pass Unit := do
  let actual ← ask fun p => p.typeNameOf condition
  expectFit (← ask fun p => p.fitsType condition Node.boolType) n Node.boolType actual condition
  if ← ask fun p => p.isPrivateValue condition then
    let expected := Node.ownedBy Node.boolType (.owner {} .me)
    expectFit ((← fitOf condition expected) != .no) n expected (← ask fun p => p.typeOf condition) condition

def applyRule (purpose : Purpose) (n : Node) : Pass Unit := do
  match n with
  | .assign _ _ left right _ =>
    if !left.isLocation && !(left matches .tuple ..) then
      illTyped left "Assignment target is not a location"
    let _ ← rightSide purpose right (← ask fun p => p.typeOf left)
    if left matches .name .. | .tuple .. then checkFinal (← ask fun p => p.function n) left
  | .variableStatement _ declaration value =>
    if !value.isOmitted then
      let _ ← rightSide purpose value (← ask fun p => p.typeOf declaration)
  | .call _ callee _ _ => typeOfCall n callee purpose
  | .cast _ _ value _ => let _ ← castType purpose value
  | .member _ base _ =>
    if (← ask fun p => p.target n).isOmitted then throw .violated
    if (← ask fun p => p.typeNameOf base).isAddressType then
      if ← ask fun p => p.isPrivateValue base then
        illTyped n "Cannot access members of private address variable"
    throw .absent
  | .reveal _ value owner => typeOfReveal n value owner purpose
  | .returnValue _ value => typeOfReturn n value purpose
  | .tuple _ elements =>
    if elements.isEmpty then setType n (Program.publicType (.tupleType {} [])) else throw .absent
  | .owner _ .me | .owner _ .tee => setType n (Program.publicType Node.addressType)
  | .name .. =>
    match ← ask fun p => p.target n with
    | .mapping .. => return ()
    | .contract .. => illTyped n "Unsupported use of contract type in expression"
    | _ => throw .absent
  | .index _ base key => typeOfIndex n base key purpose
  | .enum .. => typeOfEnum n .enum
  | .enumValue .. => typeOfEnum n .enumValue
  | .stateVariable _ type _ _ value _ => typeOfStateVariable n type value purpose
  | .annotated _ type _ owner => checkAnnotated type owner
  | _ =>
    if purpose == .check then
      match n with
      | .branch _ condition _ _ => checkBranch n condition
      | .whileLoop _ condition _ | .forLoop _ _ condition _ _ => checkCondition n condition
      | .mapping _ key label _ =>
        if !label.isOmitted then
          if !(← ask fun p => p.same key Node.addressType) then illTyped n "Only addresses can be annotated"
      | .require _ condition _ _ =>
        if ← ask fun p => p.isPrivateValue condition then illTyped n "require needs public argument"
      | _ => return ()

def applyRules (purpose : Purpose) (n : Node) : Pass Unit := do
  ofOutcome n.ensureWalkable
  n.children.attach.forM fun ⟨c,_⟩ => applyRules purpose c
  applyRule purpose n
termination_by sizeOf n
decreasing_by exact Node.sizeOf_lt_child (by assumption)

def typeProgram (purpose : Purpose) : Pass Unit := do
  ask fun p => p.checkFinals
  applyRules purpose (← get).tree

end Pass
end Confidential
