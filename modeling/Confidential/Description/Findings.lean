import Confidential.Json
import Confidential.Transform.Ciphertext
import Confidential.Typing.Rules
import Confidential.Value.Shown

/-!
What is known about a program, as plain data: where names lead, what functions and statements do, how
functions are carried out.
-/

namespace Confidential

namespace Node

def place (n : Node) : Value :=
  .list [.int n.line,.int n.column]

def statementsInside (n : Node) : List Node :=
  n.preorder.filter (·.isStatement)

def functionName (n : Node) : Value :=
  match Program.nameText n with
  | .ok t => .text t
  | .error _ => .null

def asTarget (n : Node) : Value :=
  if n.isOmitted then .null
  else .list [.text n.label,match n.ownName? with
    | some (.identifier _ t) => .text t
    | _ => .null,n.place]

def isReference : Node → Bool
  | .name .. | .member .. | .index .. | .userType .. => true
  | _ => false

end Node

namespace Program

variable (p : Program)

/-! ### Names -/

def scopes : Value :=
  .list (p.tree.preorder.filterMap fun n =>
    match p.links.names[n.id]? with
    | some (e :: es) => some (.list [.text n.label,n.place,Value.ofTexts ((e :: es).map (·.1))])
    | _ => none)

def reference (n : Node) : Outcome Value := do
  let head := [.text n.label,.text (← p.code n),n.place,(← p.target n).asTarget]
  if n matches .userType .. then return .list head
  return .list (head ++ [.bool (p.isLeftValue n),.bool (← p.isOnLeftSide n)])

def references : Outcome Value := do
  return .list (← (p.tree.preorder.filter (·.isReference)).mapM p.reference)

def qualifiedNames : Outcome Value := do
  return .list (← (p.tree.preorder.filter (·.isNamespace)).mapM fun n => do
    return Value.ofTexts ((← p.qualifiedName n).map fun k => ((p.node k).identifierText?).getD ""))

def indexTargets : Outcome Value := do
  let found ← (p.tree.preorder.filter (· matches .index ..)).mapM p.target
  return .list (found.map (·.asTarget))

/-! ### Effects -/

def accessed (a : Access) : Outcome Value := do
  let name ← nameText (p.node a.target)
  let codeOr (k : Option Nat) : Outcome Value := match k with
    | none => .ok .null
    | some k => do return .text (← p.code (p.node k))
  return .list [.text name,← codeOr a.key,← codeOr a.via]

def effects (n : Node) : Outcome Value := do
  let changed ← (p.modified.getD n.id []).mapM p.accessed
  let seen ← (p.read.getD n.id []).mapM p.accessed
  let keyed := seen.map fun v => (Json.write Json.spaced v,v)
  return .record [("mod",.list changed),
    ("read",.list ((keyed.mergeSort fun a b => a.1 ≤ b.1).map (·.2)))]

def processed (policy : PrivacyPolicy) (full : Bool) : Outcome Value := do
  let functions ← p.routines.mapM fun f => do
    let inner := f.statementsInside
    let shown ← if full then
        Value.list <$> inner.mapM fun s => do return .list [.text s.label,s.place,← p.effects s]
      else pure (.int inner.length)
    return Value.list [f.functionName,← p.effects f,shown]
  return .record [("policy",policy.sorted.toValue),("functions",.list functions)]

def modifiedInScope : Outcome Value := do
  let rows ← p.routines.mapM fun f =>
    (p.modified.getD f.id []).mapM fun a => do
      let name := ((p.accessTarget a).ownName?).getD .omitted
      let uses ← f.statementsInside.mapM fun s => do
        return Value.list [.text s.label,s.place,.bool (← p.inScope name s)]
      return Value.list [f.functionName,← p.accessed a,.list uses]
  return .list rows.flatten

def sideEffects : Answer :=
  let nodes := p.tree.preorder.filter fun n => n.isStatement || n.isContract || n matches .call ..
  .list (nodes.map fun n =>
    .list [.text n.label,.value n.place,.of .bool (p.hasSideEffects n)])

/-! ### Functions -/

def functionRows (row : Node → FunctionFacts → List Value) : Value :=
  .list (p.routines.map fun f => .list (f.functionName :: row f (p.facts f)))

def callRows : Value :=
  p.functionRows fun _ facts =>
    [.list (facts.called.map fun k => (p.node k).functionName),.bool facts.isRecursive,
     .bool facts.hasStaticBody]

def circuitRows : Value :=
  p.functionRows fun _ facts => [.bool facts.canBePrivate]

def privacyRows : Value :=
  p.functionRows fun _ facts =>
    [.text facts.privacy.word,.bool (facts.privacy == .zkp),.bool facts.verifiedOutside]

def verificationRows : Value :=
  p.functionRows fun _ facts =>
    [.bool (facts.privacy == .pub),.bool (facts.privacy == .zkp),.bool (facts.privacy == .tee),
     .bool (facts.privacy == .zkp)]

def headerRow (f : Node) : Outcome Value := do
  match f with
  | .function _ _ _ _ _ _ kind =>
    return .list [f.functionName,.text kind.word,.bool (← f.hasSideEffects),.bool f.canBeExternal,
      .bool (f.hasMark "external"),.bool (f.hasMark "payable"),.bool (kind == .constructor),
      .bool (kind == .function),.text (← p.code f.resultTypes),.text (← p.code f.parameterTypes),
      .list (← f.resultVariables.mapM fun v => do return .text (← p.code v))]
  | _ => .error .absent

def headerRows : Outcome Value := do
  return .list (← p.routines.mapM p.headerRow)

/-! ### Expressions -/

def expressionText : Node → Outcome String
  | .builtin _ op => .ok op.name
  | n => p.code n

def expressions : List Node :=
  p.tree.preorder.filter (·.isExpression)

def hiddenExpressions : Outcome Value := do
  let hidden := p.expressions.filter fun n => match p.isHidden n with
    | .ok b => b
    | .error _ => false
  return .list (← hidden.mapM fun n => do return .list [.text (← p.expressionText n),n.place])

/-! ### Owners that are the same -/

def partitionText {α : Type} [DecidableEq α] (name : α → String) (s : Partition α) : String :=
  Value.shown (.list ((s.sortedTexts name).map Value.ofTexts))

def aliasText : Option (Partition Label) → String
  | some s => partitionText p.labelText s
  | none => "None"

def storedForm (n : Node) : Answer :=
  match (Ciphertext.declaration n).run p with
  | (.ok m,p) => if m.isOmitted then .null else .of .text (p.code m)
  | (.error f,_) => .fault f

def storedForms : Answer :=
  let parameters := p.routines.flatMap fun f => match f with
    | .function _ _ parameters _ _ _ _ => parameters.getD []
    | _ => []
  .record [("states",.list ((p.contracts.flatMap (·.stateVariables)).map p.storedForm)),
    ("params",.list (parameters.map p.storedForm))]

def aliasRows : Value :=
  .list (p.tree.statementsInside.map fun s =>
    .list [.text s.label,s.place,.text (p.aliasText p.before[s.id]?),.text (p.aliasText p.after[s.id]?)])

end Program

namespace Pass

def setPrivacies (privacy : Privacy) : Pass Unit := do
  (← get).routines.forM fun f => updateFacts f fun facts => { facts with privacy }

def annotateNames : Pass Nat := do
  let p ← get
  let found := p.tree.preorder.filterMap fun n => match n with
    | .name .. =>
      match (do p.typeOf (← p.target n) : Outcome Node) with
      | .ok .omitted | .error _ => none
      | .ok t => some (n,t)
    | _ => none
  found.forM fun (n,t) => modify fun p => { p with types := p.types.insert n.id t }
  return found.length

def hideExpressions (texts : List String) : Pass Unit := do
  let p ← get
  p.expressions.forM fun n => do
    if p.links.statements.contains n.id then
      if texts.contains (← ask fun p => p.expressionText n) then setHidden true n

def typeExpressions (text : String) (type : Pass Node) : Pass Nat := do
  (← get).expressions.foldlM (fun count n => do
    if (← ask fun p => p.expressionText n) == text then
      setType n (← type)
      return count + 1
    else return count) 0

end Pass
end Confidential
