import Confidential.Elementary
import Confidential.Node.Kinds

/-!
Nodes that are put together from parts. A part that does not fit its place is refused at once.
-/

namespace Confidential

def Operator.named (sign : String) : Outcome Operator :=
  match ofName? sign with
  | some op => .ok op
  | none => .error (.badValue (some (sign ++ " is not a known built-in function")))

def FunctionKind.ofWord (word : String) : FunctionKind :=
  match [FunctionKind.function,.constructor,.fallback,.receive].find? fun k => k.word == word with
  | some k => k
  | none => .other word

namespace Node

/-! ### Types -/

def boolType : Node :=
  .elementary {} (.bool "bool")

def uintType : Node :=
  .elementary {} (.uint "uint" 0)

def numberType : Node :=
  .elementary {} Elementary.anyNumber

def addressType : Node :=
  .userType {} .address [.identifier {} "<address>"]

def addressPayableType : Node :=
  .userType {} .addressPayable [.identifier {} "<address_payable>"]

def ownedBy (type owner : Node) : Node :=
  if owner.isOmitted then .annotated {} type false (.owner {} .all) else .annotated {} type true owner

def withAnyOwner : Node → Node
  | .annotated i type written who => .annotated i type written who
  | type => type.ownedBy .omitted

mutual

def annotate (owner : Node) : Node → Outcome Node
  | .tupleType _ types => do return ownedBy (.tupleType {} (← annotateAll owner types)) .omitted
  | type => .ok (type.ownedBy owner)

def annotateAll (owner : Node) : List Node → Outcome (List Node)
  | [] => .ok []
  | .annotated _ type _ _ :: rest => do
    let first ← annotate owner type
    return first :: (← annotateAll owner rest)
  | _ :: _ => .error .absent

end

def annotateEach (owners : List Node) : Node → Outcome Node
  | .tupleType _ types => do
    if types.length ≠ owners.length then .error .violated
    let owned ← (types.zip owners).mapM fun (t,who) => match t with
      | .annotated _ type _ _ => annotate who type
      | _ => .error .absent
    return ownedBy (.tupleType {} owned) .omitted
  | _ => .error .absent

def asTuple : Node → Outcome Node
  | .omitted => .ok (.tupleType {} [])
  | .annotated i (.tupleType j types) written who => .ok (.annotated i (.tupleType j types) written who)
  | .annotated i type written who => .ok (.tupleType {} [.annotated i type written who])
  | _ => .error .absent

/-! ### Expressions -/

def ofNumber (value : Int) (hexadecimal : Bool) (source unit : Option String) : Outcome Node :=
  if Literal.isAccepted value then .ok (.number {} value hexadecimal source unit) else .error .violated

def asLiteral : Node → Outcome Node
  | .plain (.int value) => ofNumber value false none none
  | .plain (.bool b) => ofNumber (if b then 1 else 0) false none none
  | n => .ok n

def arrayOf (value size : Node) : Outcome Node := do
  return .arrayType {} value (← size.asLiteral)

def nestedArrays (value : Node) (sizes : List Int) : Outcome Node :=
  sizes.foldlM (fun type size => do
    return ownedBy (.arrayType {} type (← ofNumber size false none none)) .omitted) value

def callOf (callee : Node) (args : List Node) : Node :=
  .call {} callee (.arguments {} args false) false

def operation (sign : String) (operands : List Node) : Outcome Node := do
  return callOf (.builtin {} (← Operator.named sign)) operands

def memberOf (base member : Node) : Outcome Node :=
  if base.isLocation then .ok (.member {} base member) else .error .violated

def asIdentifier : Node → Node
  | .plain (.text t) => .identifier {} t
  | n => n

def elementOf (base key : Node) : Outcome Node :=
  if base.isLocation then .ok (.index {} base key) else .error .violated

def callMember (base member : Node) (args : List Node) : Outcome Node := do
  if member.isOmitted then return callOf base args
  return callOf (← memberOf base member.asIdentifier) args

def leftmostName (style : Style) (n : Node) : Outcome Node :=
  match n with
  | .index _ base _ => go base
  | _ => .error .absent
where
  go : Node → Outcome Node
    | .index _ base _ => go base
    | .name i t => .ok (.name i t)
    | _ => do
      let text ← n.code style
      .error (.compilation s!"the leftmost expression of {text} is not identifier expression")

/-! ### Statements -/

def requirement (style : Style) (condition comment : Node) (written : Option String) : Outcome Node := do
  match written with
  | some t => return .require {} condition comment t
  | none => return .require {} condition comment (← code style (.require {} condition comment ""))

def commented (text : String) (block : List Node) : List Node :=
  if block.isEmpty then [] else .comment {} text :: block ++ [.blankLine {}]

def wrapped (text : String) (block : List Node) : List Node :=
  if block.isEmpty then []
  else [.comment {} text,.comment {} "\x7b",.statements {} .indented block,.comment {} "\x7d",.blankLine {}]

def holds (isIt : Node → Bool) : Node → Bool
  | .statements _ _ body => body.attach.any fun ⟨s,_⟩ => isIt s || holds isIt s
  | _ => false
termination_by n => sizeOf n

/-! ### Declarations -/

def functionOf (name : Node) (parameters : Option (List Node)) (marks results : List Node) (body : Node)
    (kind : String) : Outcome Node :=
  if name.isOmitted then .error .violated
  else .ok (.function {} name parameters marks results body (FunctionKind.ofWord kind))

/-- Adds a parameter to a function. Values that take a single place have no storage. -/
def withParameter (type label : Node) (storage : String) : Node → Outcome Node
  | .function i idf parameters marks results body kind =>
    match type.withAnyOwner with
    | .annotated j t written who =>
      if !t.isTypeName then .error .absent
      else
        let added := .declaration {} .parameter [] (.annotated j t written who) label.asIdentifier
          (some (if t.isPrimitive then "" else storage))
        .ok (.function i idf (some (parameters.getD [] ++ [added])) marks results body kind)
    | _ => .error .absent
  | _ => .error .absent

def withStorage (old new : Option String) : Node → Node
  | .declaration i kind keywords type label storage =>
    .declaration i kind keywords type label (if storage = old then new else storage)
  | n => n

def hasKeyword (word : String) : Node → Outcome Bool
  | .declaration _ _ keywords _ _ _ | .stateVariable _ _ keywords _ _ _ => .ok (keywords.contains word)
  | _ => .error .absent

end Node
end Confidential
