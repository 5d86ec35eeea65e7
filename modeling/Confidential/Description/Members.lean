import Confidential.Description.Assembly
import Confidential.Description.Findings
import Confidential.Description.Inspection
import Confidential.Description.Types

/-!
What can be asked of a node and done with it, each as a function of the node and of the items that it is
asked with.
-/

namespace Confidential

abbrev Member : Type :=
  Node → List Item → Option (Pass Item)

namespace Member

/-! ### Ways to make members -/

def plain (work : Node → Pass Item) : Member := fun n items =>
  some (if items.isEmpty then work n else throw .misused)

def question (f : Program → Node → Outcome Item) : Member :=
  plain fun n => Pass.ask fun p => f p n

def flag (f : Program → Node → Outcome Bool) : Member :=
  question fun p n => .bool <$> f p n

def node (f : Program → Node → Outcome Node) : Member :=
  question fun p n => .node <$> f p n

def one (work : Node → Item → Pass Item) : Member := fun n items =>
  some (match items with
    | [i] => work n i
    | _ => throw .misused)

def pair (f : Program → Node → Node → Outcome Item) : Member :=
  one fun n i => Pass.ask fun p => f p n i.toNode

def two (work : Node → Item → Item → Pass Item) : Member := fun n items =>
  some (match items with
    | [i,j] => work n i j
    | _ => throw .misused)

def only (isIt : Node → Bool) (m : Member) : Member := fun n items =>
  if isIt n then m n items else none

def ofExpression : Member → Member :=
  only (·.isExpression)

def ofLocation : Member → Member :=
  only (·.isLocation)

def ofType : Member → Member :=
  only (·.isTypeName)

def ofFunction : Member → Member :=
  only (·.isFunction)

def ofAnnotated : Member → Member :=
  only (· matches .annotated ..)

def ofMapping : Member → Member :=
  only (· matches .mapping ..)

def ofParameter : Member → Member :=
  only (· matches .declaration _ .parameter ..)

def ofOperator (f : Operator → Item) : Member := fun n items =>
  match n with
  | .builtin _ op => plain (fun _ => return f op) n items
  | _ => none

def operandTypes : Member :=
  ofOperator fun op => match op.operandType? with
    | some t => .nodes (List.replicate op.arity (.elementary {} t))
    | none => .null

def outputType : Member :=
  ofOperator fun op => match op.resultType? with
    | some t => .node (.elementary {} t)
    | none => .null

def fact (f : FunctionFacts → Item) : Member :=
  ofFunction (question fun p n => .ok (f (p.facts n)))

def header (f : Node → Bool) : Member :=
  ofFunction (flag fun _ n => .ok (f n))

def made (r : Outcome Node) : Pass Item := do
  return .node (← Pass.register (← Pass.ofOutcome r))

/-! ### All nodes -/

def children : Member :=
  question fun _ n => do
    n.ensureWalkable
    return .nodes n.children

def around : Member :=
  pair fun p n m => .ok (.bool (p.isAround n m))

def text : Member := fun n items =>
  some (match items with
    | [] => Pass.ask fun p => .text <$> p.code n
    | [i] => Pass.ask fun p => .text <$> n.code (p.style i.toFlag)
    | _ => throw .misused)

def relatedFunction : Member :=
  plain fun n => .node <$> Pass.relatedFunction n

def relatedContract : Member :=
  plain fun n => .node <$> Pass.relatedContract n

def relatedSource : Member :=
  plain fun n => .node <$> Pass.sourceAround n

def onLeftSide : Member :=
  flag fun p n => p.isOnLeftSide n

/-- Types and owners are compared; of other nodes only the node itself is known to be the same. -/
def equal : Member :=
  pair fun p n m =>
    if n.isTypeName || n matches .annotated .. || n matches .owner .. then .bool <$> p.same n m
    else .ok (if n.id = m.id then .bool true else .other "NotImplementedType")

def count : Member :=
  question fun _ n => do return .int (← n.componentCount)

def holding : Member :=
  pair fun p n m => .bool <$> p.has n m

def part : Member :=
  one fun n i => match i with
    | .node (.plain (.text t)) => .node <$> Pass.partNamed n t
    | i => .node <$> Pass.ofOutcome do n.entryAt (← i.toInt)

def parent : Member :=
  node fun p n => p.parent n

def line : Member :=
  only (fun n => !n.isBare || n.line != -1) (question fun _ n => .ok (.int n.line))

def column : Member :=
  only (fun n => !n.isBare || n.line != -1) (question fun _ n => .ok (.int n.column))

def enclosing : Member :=
  question fun p n => match p.links.namespaces[n.id]? with
    | some ids => .ok (.nodes (ids.map p.node))
    | none => if n.isBare then .error .absent else .ok .null

def kept (kind : String) : Member :=
  only (!·.isBare) (question fun _ _ => .ok (.other kind))

def qualifiedName : Member :=
  question fun p n => do return .nodes ((← p.qualifiedName n).map p.node)

/-! ### Expressions -/

def isOwner (who : Owner) : Member :=
  ofExpression (flag fun _ n => .ok (match n with
    | .owner _ w => w = who
    | _ => false))

def label : Member :=
  ofExpression (question fun p n => do
    return match ← p.label n with
      | some (.owner who) => .node (.owner {} who)
      | some (.identifier k) => .node (p.node k)
      | none => .null)

def fitsType : Member :=
  ofExpression (pair fun p n t => .bool <$> p.fitsType n t)

def fits : Member :=
  ofExpression (pair fun p n t => do return .node (.plain (← p.fits n t).toValue))

def unary : Member :=
  ofExpression (one fun n op => made do Node.operation (← op.toText) [n])

def binary : Member :=
  ofExpression (two fun n op right => made do Node.operation (← op.toText) [n,right.toNode])

def choice : Member :=
  ofExpression (two fun n yes no => .node <$> Pass.choose n yes.toNode no.toNode)

def withType : Member :=
  ofExpression (one fun n t => .node <$> Pass.withType n t.toNode)

def isLeft : Member :=
  only (·.isTupleOrLocation) (flag fun p n => .ok (p.isLeftValue n))

def isRight : Member :=
  only (·.isTupleOrLocation) (flag fun p n => .ok !p.isLeftValue n)

def assignment : Member :=
  only (·.isTupleOrLocation) (one fun n v => made (.ok (.assign {} false n v.toNode "")))

def call : Member :=
  ofLocation (two fun n member items => made do n.callMember member.toNode (← items.toNodes))

def access : Member :=
  ofLocation (one fun n member => made (n.memberOf member.toNode.asIdentifier))

def element : Member :=
  ofLocation (one fun n key => .node <$> Pass.elementAt n key.toNode)

def untypedElement : Member :=
  ofLocation (one fun n key => made do n.elementOf (← key.toNode.asLiteral))

def slice : Member :=
  only (· matches .name ..) fun n items => some (match items with
    | [start,size] => made do return .slice {} n .omitted (← start.toInt) (← size.toInt)
    | [start,size,offset] => made do return .slice {} n offset.toNode (← start.toInt) (← size.toInt)
    | _ => throw .misused)

def declaredType : Member :=
  only (· matches .name ..) (node fun p n => do p.typeOf (← p.target n))

def leftmost : Member :=
  only (· matches .index ..) (node fun p n => n.leftmostName (p.style false))

def target : Member :=
  node fun p n => p.target n

def statement : Member :=
  node fun p n => p.statement n

def type : Member :=
  node fun p n => p.typeOf n

def hidden : Member :=
  flag fun p n => p.isHidden n

def privateOperator : Member :=
  only (· matches .builtin ..) (flag fun p n => .ok (p.isPrivateOperator n))

def ofState (s : Option (Partition Label)) : Item :=
  if s.isSome then .other "PartitionState" else .null

def known : Member :=
  question fun p n => do
    let s ← p.statement n
    return if s.isOmitted then .null else ofState p.before[s.id]?

def isCast : Member := fun n items =>
  match n with
  | .call _ callee _ _ => flag (fun p _ => p.isCast callee) n items
  | _ => none

/-- Owners never change, and neither do the names of some state variables. -/
def immutable : Member := fun n items =>
  match n with
  | .identifier .. => flag (fun p n => .ok (p.isImmutableName n)) n items
  | .owner .. => flag (fun _ _ => .ok true) n items
  | _ => none

/-! ### Statements -/

def function : Member :=
  node fun p n => p.function n

def before : Member :=
  only (·.isStatement) (question fun p n => .ok (ofState p.before[n.id]?))

def after : Member :=
  only (·.isStatement) (question fun p n => .ok (ofState p.after[n.id]?))

def inFront : Member :=
  only (fun n => n.isStatement && !n.isBare) (question fun _ _ => .ok (.list []))

def loopSteps : Member :=
  question fun _ n => do return .nodes (← n.loopSteps)

/-! ### Types -/

def typeFlag (f : Node → Bool) : Member :=
  ofType (flag fun _ n => .ok (f n))

def words : Member :=
  ofType (question fun _ n => .ok (.int n.words))

def width : Member :=
  question fun _ n => do return .int (← n.width)

def value : Member := fun n items =>
  match n with
  | .elementary _ t =>
    match t.constant? with
    | some (.bool b) => plain (fun _ => return .bool b) n items
    | some (.int v) => plain (fun _ => return .int v) n items
    | none => none
  | _ => none

def isAddress : Member := fun n items =>
  match n with
  | .annotated _ t _ _ => flag (fun _ _ => .ok t.isAddressType) n items
  | n => typeFlag (·.isAddressType) n items

def canBePrivate : Member := fun n items =>
  match n with
  | .builtin _ op => flag (fun _ _ => .ok op.canBePrivate) n items
  | .function .. => none
  | n => ofType (flag fun _ n => n.canBePrivate) n items

def convertible : Member :=
  ofType (pair fun p n t => .bool <$> p.converts n t)

def compatible : Member :=
  ofType (pair fun p n t => .bool <$> p.compatible n t)

def annotate : Member :=
  ofType (one fun n i => made (match i with
    | .list owners => n.annotateEach (owners.map (·.toNode))
    | i => Node.annotate i.toNode n))

/-- The type that a constant has when it is stored. That of the value of an enum is the enum. -/
def abstract : Member :=
  only (·.isConstantType) (plain fun n => do
    let m ← Pass.register (← Pass.ask fun p => p.abstractType n)
    if m matches .userType .. then
      let owner ← Pass.ask fun p => do p.parent (← p.target n)
      if !owner.isOmitted then Pass.setTarget m owner.id
    return .node m)

/-- What two types have in common as a node; the components of a tuple have no owners. -/
def ofCombined : Combined → Node
  | .nothing => .omitted
  | .constant => .plain (.text "lit")
  | .type t => t
  | .tuple parts => .tupleType {} (parts.attach.map fun ⟨c,_⟩ =>
      .annotated {} (ofCombined c) true (.plain .null))

def common : Member :=
  ofType (two fun n t asTypes => Pass.ask fun p => do
    return .node (ofCombined (← p.combined asTypes.toFlag n t.toNode)))

def represents : Member := fun n items =>
  match n with
  | .elementary _ e =>
    only (fun _ => e.isNumber) (one fun _ v => Pass.ask fun _ => do
      return .bool (← e.represents (← v.toInt))) n items
  | _ => none

def depth : Member :=
  ofMapping (question fun _ n => .ok (.int n.mappingDepth))

def split : Member :=
  ofMapping (question fun _ n =>
    let (depth,keys,last) := n.split
    .ok (.list [.int depth,.nodes keys,.node last]))

def hasLabel : Member := fun n items =>
  match n with
  | .mapping _ _ label _ => flag (fun _ _ => .ok !label.isOmitted) n items
  | _ => none

def key : Member :=
  ofMapping (question fun p n => .ok (.node ((p.keys[n.id]?).map p.node |>.getD .omitted)))

def compareOwners : Member :=
  only (· matches .tupleType ..) (one fun _ _ => return .null)

mutual

def ofShared : Shared → Item
  | .nobody => .null
  | .owner n => .node n
  | .each shares => .list (ofSharedAll shares)

def ofSharedAll : List Shared → List Item
  | [] => []
  | s :: ss => ofShared s :: ofSharedAll ss

end

def sharedOwner : Member :=
  ofAnnotated (two fun n _ other => Pass.ask fun p => do
    return ofShared (← p.sharedOwner none n other.toNode))

def isPublic : Member :=
  ofAnnotated (flag fun _ n => Program.isPublic n)

def isPrivate : Member :=
  ofAnnotated (flag fun _ n => do return !(← Program.isPublic n))

/-! ### Declarations -/

def keyword (word : String) : Member :=
  flag fun _ n => n.hasKeyword word

def copy : Member :=
  ofParameter (plain fun n => made (.ok (n.withInfo {})))

def withStorage : Member :=
  ofParameter (two fun n old new => do
    let old ← Pass.ofOutcome old.toText?
    let new ← Pass.ofOutcome new.toText?
    Pass.updateNode n.id (·.withStorage old new)
    return .node n)

/-- Adds a parameter of a type and with a name; values that take several places are kept in memory, or
where a third item tells. -/
def addParameter : Member :=
  ofFunction fun n items => some (match items with
    | [type,name] => add n type name "memory"
    | [type,name,storage] => do add n type name (← Pass.ofOutcome storage.toText)
    | _ => throw .misused)
where
  add (n : Node) (type name : Item) (storage : String) : Pass Item := do
    let m ← Pass.register (← Pass.ofOutcome (Node.withParameter type.toNode name.toNode storage n))
    Pass.updateNode n.id fun _ => m
    return .null

def participant : Member :=
  ofFunction (one fun n name => do .node <$> Pass.participant n (← Pass.ofOutcome name.toText))

def hasPrivacy (privacy : Privacy) : Member :=
  fact fun f => .bool (f.privacy == privacy)

def name : Member := fun n items =>
  match n with
  | .function _ label .. => plain (fun _ => return .optionalText label.identifierText?) n items
  | .owner _ who => plain (fun _ => return .text who.word) n items
  | _ => none

def sideEffects : Member :=
  flag fun _ n => n.hasSideEffects

def resultTypes : Member :=
  ofFunction (plain fun n => made (.ok n.resultTypes))

def parameterTypes : Member :=
  ofFunction (plain fun n => made (.ok n.parameterTypes))

def resultVariables : Member :=
  ofFunction (plain fun n => do return .nodes (← n.resultVariables.mapM Pass.register))

def lines : Member :=
  only (·.isSource) (question fun p n => .ok (.texts (if n.id = p.root then p.lines else [])))

def stateTypes : Member :=
  only (·.isContract) (kept "dict")

def parts (isIt : Node → Bool) (f : Node → List Node) : Member :=
  only isIt (question fun _ n => .ok (.nodes (f n)))

end Member
end Confidential
