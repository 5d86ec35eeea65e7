import Confidential.Analysis.Secrets
import Confidential.Operator.Evaluation
import Confidential.Policy.Shape
import Confidential.Typing.Fit
import Confidential.Value.Access

/-!
Types, pairs of types, pairs of owners and operators, with all that is known of them.
-/

namespace Confidential

def Elementary.constant? : Elementary → Option Constant
  | .boolLiteral t => some (.bool (t == "true"))
  | .numberLiteral v => some (.int v)
  | _ => none

namespace Constant

def text : Constant → String
  | .bool b => if b then "True" else "False"
  | .int n => toString n

def ofValue : Value → Constant
  | .bool b => .bool b
  | v => .int v.asNumber

def toAnswer : Constant → Answer
  | .bool b => .bool b
  | .int n => .text (toString n)

end Constant

namespace Program

def mappingFacts (p : Program) (t : Node) : List (String × Answer) :=
  match t with
  | .mapping .. =>
    let (depth,keys,value) := t.split
    let codeOf (n : Node) : Answer := .of .text (p.code n)
    [("split",.list [.int depth,.list (keys.map codeOf),codeOf value]),("depth",.int t.mappingDepth),
     ("owner",.of (fun o => .value o.toValue) (Ownership.ofType (Program.publicType t)))]
  | _ => []

def typeFacts (p : Program) (t : Node) (values : List Int) : Answer :=
  let ofType (b : Bool) : Answer := if t.isTypeName then .bool b else .fault .absent
  let common : List (String × Answer) :=
    [("code",.of .text (p.code t)),("is_literal",ofType t.isConstantType),("is_numeric",ofType t.isNumeric),
     ("is_boolean",ofType t.isBoolean),("is_signed_numeric",ofType t.isSignedNumeric),
     ("is_mapping",ofType (t matches .mapping ..)),
     ("size_in_uints",if t.isTypeName then .text (toString t.words) else .fault .absent),
     ("elem_bitwidth",.of (fun w => .text (toString w)) t.width),("is_address",ofType t.isAddressType),
     ("is_primitive_type",ofType t.isPrimitive),("can_be_private",.of .bool t.canBePrivate),
     ("format",.of (fun s => .value s.toValue) (Shape.ofType t))]
  let literal : List (String × Answer) := match t with
    | .elementary _ e =>
      match e.constant? with
      | some c =>
        [("abstract",.of .text do p.code (← p.abstractType t)),("value",.text c.text)]
      | none => []
    | .userType _ .enumValue _ => [("abstract",.of .text do p.code (← p.abstractType t)),("value",.fault .absent)]
    | _ => []
  let numbers : List (String × Answer) := match t with
    | .elementary _ e =>
      if e.isNumber then [("represents",.list (values.map fun v => .of .bool (e.represents v)))] else []
    | _ => []
  .record (common ++ literal ++ numbers ++ p.mappingFacts t)

/-- A combined type as its text. The components of a tuple have no owners, so it has no text. -/
def combinedText (p : Program) : Combined → Outcome Value
  | .nothing => .ok .null
  | .constant => .ok (.text "lit")
  | .type t => do return .text (← p.code t)
  | .tuple [] => .ok (.text "()")
  | .tuple _ => .error .absent

def relation (p : Program) (a b : Node) : Answer :=
  let combine (asTypes : Bool) : Answer := .of .value do p.combinedText (← p.combined asTypes a b)
  .record [("eq",.of .bool (p.same a b)),("to",.of .bool (p.converts a b)),("from",.of .bool (p.converts b a)),
    ("compatible",.of .bool (p.compatible a b)),("combined",combine false),("combined_conv",combine true)]

def sharedText (p : Program) : Shared → Outcome Value
  | .nobody => .ok .null
  | .owner n => do return .text (← p.code n)
  | .each _ => .error .absent

end Program

def Fit.toValue : Fit → Value
  | .no => .bool false
  | .yes => .bool true
  | .byHiding => .text "make-private"

def Program.ownersKnown (p : Program) (parameters : List Node) (same : List (String × String)) :
    Outcome (Partition Label) := do
  let labels ← parameters.mapM fun v => do
    match v.annotatedType with
    | .annotated _ _ _ owner => return (← nameText v,← p.label owner)
    | _ => .error .absent
  let start := labels.foldl (fun (s : Partition Label) (_,l) => match l with
    | some l => if s.has l then s else s.insert l
    | none => s) {}
  same.foldlM (fun s (x,y) => do
    match labels.lookup x,labels.lookup y with
    | some (some a),some (some b) => Aliases.settled (s.merge a b)
    | some _,some _ => .error .unknownKey
    | _,_ => .error .unknownKey) start

/-- How the parameters of a function stand to each other. -/
def Pass.ownerRelations (parameters : List Node) (same : Option (List (String × String))) : Pass Answer := do
  let p ← get
  let known ← same.mapM fun pairs => ofOutcome (p.ownersKnown parameters pairs)
  let named ← parameters.mapM fun v => do return (← ofOutcome (Program.nameText v),v.annotatedType,v)
  let statement ← register (.general {} .statement)
  match known with
  | some s => modify fun p => { p with before := p.before.insert statement.id s }
  | none => pure ()
  let every (f : Node → Node → Pass Value) : Pass Answer := do
    let rows ← named.mapM fun (x,a,v) => do
      named.mapM fun (y,b,_) => do
        let n ← register (.name {} (.identifier {} x))
        modify fun p => { p with
          types := p.types.insert n.id a
          links := { p.links with
            targets := p.links.targets.insert n.id v.id
            statements := if known.isSome then p.links.statements.insert n.id statement.id
              else p.links.statements } }
        return Answer.list [.text x,.text y,.of .value (← attempt (f n b))]
    return .list rows.flatten
  let pairs ← every fun n b => ask fun p => do
    p.sharedText (← p.sharedOwner known (← p.typeOf n) b)
  let fits ← every fun n b => ask fun p => do return (← p.fits n b).toValue
  let each (f : Node → Outcome Bool) : Outcome Answer := do
    return .list ((← named.mapM fun (_,a,_) => f a).map Answer.bool)
  let isAddress (a : Node) : Bool := match a with
    | .annotated _ t _ _ => t.isAddressType
    | _ => false
  return .record [("pairs",pairs),("instanceof",fits),("public",← ofOutcome (each Program.isPublic)),
    ("private",← ofOutcome (each fun a => (Program.isPublic a).map not)),
    ("address",← ofOutcome (each fun a => .ok (isAddress a)))]

def Operator.facts (op : Operator) : List (String × Answer) :=
  let kind (t : Option Elementary) : Answer := match t with
    | some t => .text t.label
    | none => .null
  [("format",.text op.template),("arity",.int op.arity),("can_be_private",.bool op.canBePrivate),
   ("flags",.list ([op.isArithmetic,op == .negative,op.isComparison,op.isEquality,op.isBoolean,op.isBitwise,
     op.isShift,op == .parenthesis,op == .conditional,op.hasShortCircuit].map Answer.bool)),
   ("in",match op.operandType? with
     | some t => .texts (List.replicate op.arity t.label)
     | none => .null),
   ("out",kind op.resultType?)]
end Confidential
