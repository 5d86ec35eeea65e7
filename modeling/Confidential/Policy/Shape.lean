import Confidential.Elementary
import Confidential.Node.Kinds

/-!
Types and owners as a privacy policy describes them.
-/

namespace Confidential

inductive Shape where
  | number (signed : Bool) (bits : Int)
  | mapping (key value : Shape) (depth : Nat)
  | payableAddress
  | array (value : Shape) (length : Option Int)
  | bytes (length : Option Int)
  | named (name : String)
deriving Inhabited, DecidableEq

namespace Shape

def depth : Shape → Nat
  | .mapping _ _ d => d
  | _ => 0

def toValue : Shape → Value
  | .number signed bits =>
    .record [("type",.text "number"),("signed",.bool signed),("bit_size",.int bits)]
  | .mapping key value depth =>
    .record [("type",.text "mapping"),("key_type",key.toValue),("value_type",value.toValue),
      ("depth",.int depth)]
  | .payableAddress => .record [("type",.text "address"),("payable",.bool true)]
  | .array value length =>
    .record ([("type",.text "array"),("value_type",value.toValue)] ++
      (length.map fun n => ("len",.int n)).toList)
  | .bytes length =>
    .record (("type",.text "bytes") :: (length.map fun n => ("len",.int n)).toList)
  | .named name => .record [("type",.text name)]

/-- The structure of a type. The length of an array has to be written as an integer. -/
def ofType : Node → Outcome Shape
  | .elementary i t =>
    match t with
    | .bytes _ length => .ok (.bytes (if length = some 0 then none else length))
    | t => if t.isNumber then .ok (.number t.isSigned (t.bits?.getD 0))
      else .named <$> Node.code {} (.elementary i t)
  | .mapping _ key _ (.annotated _ value _ _) => do
    let k ← ofType key
    let v ← ofType value
    match v with
    | .named "mapping" => .error .unknownKey
    | v => return .mapping k v (v.depth + 1)
  | .mapping _ key _ _ => do
    let _ ← ofType key
    .error .absent
  | .userType _ .addressPayable _ => .ok .payableAddress
  | .arrayType _ value .omitted => do return .array (← ofType value) none
  | .arrayType _ value size => do
    let v ← ofType value
    match Text.integer? (← size.code {}) with
    | some n => return .array v (some n)
    | none => .error (.badValue none)
  | .userType i kind path => .named <$> Node.code {} (.userType i kind path)
  | .tupleType i types => .named <$> Node.code {} (.tupleType i types)
  | .functionType i ps ms rs => .named <$> Node.code {} (.functionType i ps ms rs)
  | .general i .typeName => .named <$> Node.code {} (.general i .typeName)
  | _ => .error .violated

end Shape

inductive Ownership where
  | single (owner : String)
  /-- The values of a mapping have their own owner; `position` is the level of the last key with a
  label, or -1. -/
  | perKey (owner : String) (position : Int)
deriving Inhabited, DecidableEq

namespace Ownership

def toValue : Ownership → Value
  | .single owner => .record [("owner",.text owner)]
  | .perKey owner position =>
    .record [("owner",.text "mapping"),("var",.text owner),("var_pos",.int position)]

def hasLabel : Node → Bool
  | .omitted => false
  | .plain (.text t) => !t.isEmpty
  | .plain .null => false
  | _ => true

def below (level position : Int) : Node → Outcome Ownership
  | .annotated _ (.mapping _ _ label value) _ _ =>
    below (level + 1) (if hasLabel label then level else position) value
  | .annotated _ _ _ owner => do
    let who ← owner.code {}
    return if who == "all" then .single who else .perKey who position
  | _ => .error .absent

def ofType : Node → Outcome Ownership
  | .annotated i (.mapping j key label value) written owner =>
    below 0 (-1) (.annotated i (.mapping j key label value) written owner)
  | .annotated _ _ _ owner => .single <$> owner.code {}
  | _ => .error .absent

end Ownership
end Confidential
