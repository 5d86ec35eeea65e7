import Confidential.Policy.Generation
import Confidential.Program.Building

/-!
The public form of declarations: private values are kept as ciphertexts, owners disappear, and `me`
is written as the sender of the message.
-/

namespace Confidential.Ciphertext

def parts : Nat :=
  3

def type : Node :=
  .arrayType {} (.elementary {} (.bytes "bytes" none)) (.number {} parts false none none)

def sender : Node :=
  .member {} (.name {} (.identifier {} "msg")) (.identifier {} "sender")

/-- Expressions outside of the trusted environment: `me` is the sender, and what is revealed stands
without its `reveal`. -/
def expression (n : Node) : Pass Node :=
  match n with
  | .owner _ .me => pure sender
  | .name .. => pure n
  | .index _ base key => do Pass.elementAt (← expression base) (← expression key)
  | .reveal _ value _ =>
    value.mapVisited fun c h =>
      have := Node.sizeOf_lt_part h
      expression c
  | m => if m.isLiteral then pure m else
    m.mapVisited fun c h =>
      have := Node.sizeOf_lt_part h
      expression c
termination_by sizeOf n
decreasing_by
  · simp +arith
  · simp +arith
  · rw [Node.reveal.sizeOf_spec]
    omega
  · assumption

/-- Declarations with the types of public values, and ciphertexts in place of private ones. -/
def declaration (n : Node) : Pass Node :=
  match n with
  | .annotated i t written owner => do
    if Program.isPrivateType (.annotated i t written owner) then return Program.publicType type
    return Program.publicType (← declaration t)
  | .mapping i key label value => do
    let label ← match label with
      | .omitted => pure .omitted
      | .identifier _ name => pure (.plain (.text name))
      | _ => throw .absent
    return .mapping i (← declaration key) label (← declaration value)
  | .declaration i .variable keywords t name storage => do
    let storage := if Program.isPrivateType t then some "memory" else storage
    return .declaration i .variable keywords (← declaration t) (← declaration name) storage
  | .declaration i .parameter keywords t name storage => do
    let f ← Pass.relatedFunction (.declaration i .parameter keywords t name storage)
    if f.isOmitted then throw .absent
    if ((← get).facts f).privacy = .tee then return .omitted
    let t ← declaration t
    let storage ← match t with
      | .annotated _ inner _ _ => pure (if inner.isPrimitive then storage else some "memory")
      | _ => throw .absent
    return .declaration i .parameter keywords t (← declaration name) storage
  | .stateVariable i t keywords name value override => do
    let keywords := keywords.filter (· != "public") ++ ["public"]
    let value ← if value.isOmitted then pure .omitted else do expression (← declaration value)
    return .stateVariable i (← declaration t) keywords (← declaration name) value override
  | m =>
    m.mapVisited fun c h =>
      have : sizeOf c < sizeOf m := Node.sizeOf_lt_part h
      declaration c
termination_by sizeOf n

end Confidential.Ciphertext
