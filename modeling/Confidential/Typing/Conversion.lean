import Confidential.Typing.Equality

/-!
Types: their width and their families, which type converts to which, and what type two types have in
common.
-/

namespace Confidential

namespace Node

/-- Types of constants that are known before the program runs. -/
def isConstantType : Node → Bool
  | .elementary _ t => t.isLiteral
  | .userType _ .enumValue _ => true
  | _ => false

def isNumeric : Node → Bool
  | .elementary _ t => t.isNumber
  | _ => false

def isBoolean : Node → Bool
  | .elementary _ t => t.isBoolean
  | _ => false

def isSignedNumeric : Node → Bool
  | .elementary _ t => t.isNumber && t.isSigned
  | _ => false

def isAddressType : Node → Bool
  | .userType _ k _ => k.isAddress
  | _ => false

/-- Number of words that a value takes; unknown for arrays whose length is not a plain number. -/
def words : Node → Int
  | .arrayType _ _ (.number _ v _ _ _) => v
  | .arrayType .. => -1
  | _ => 1

def width : Node → Outcome Int
  | .elementary _ t =>
    match t.bits? with
    | some w => .ok w
    | none => .error (.unsupported (some ""))
  | .userType _ k _ =>
    if k.isAddress then .ok 160
    else if k = .enum ∨ k = .enumValue then .ok 256
    else .error (.unsupported (some ""))
  | .arrayType _ (.annotated _ t _ _) _ => t.width
  | .arrayType .. => .error .absent
  | n => if n.isTypeName then .error (.unsupported (some "")) else .error .absent

def canBePrivate (n : Node) : Outcome Bool := do
  if !n.isTypeName then .error .absent
  if !n.isPrimitive then return false
  if !n.isSignedNumeric then return true
  return (← n.width) != 256

end Node

/-- What two types have in common: a type, the kind of their constants, or for tuples what their
components have in common. -/
inductive Combined where
  | nothing
  | constant
  | type (type : Node)
  | tuple (components : List Combined)

namespace Program

def componentType : Node → Outcome Node
  | .annotated _ t _ _ => .ok t
  | _ => .error .absent

def converts (p : Program) (a b : Node) : Outcome Bool := do
  match a with
  | .tupleType _ ts =>
    match b with
    | .tupleType _ us =>
      if ts.length ≠ us.length then return false
      (ts.attach.zip us).foldlM (fun so (⟨c,_⟩,u) =>
        match c with
        | .annotated _ t _ _ => do if so then p.converts t (← componentType u) else return false
        | _ => if so then .error .absent else .ok false) true
    | _ => return false
  | .elementary _ (.numberLiteral v) =>
    if !b.isTypeName then .error .absent
    match b with
    | .elementary _ t => (Elementary.numberLiteral v).converts t
    | .userType _ k _ =>
      if k.isAddress && (Elementary.numberLiteral v).bits? == some 160 && 0 ≤ v then return true
      else p.same b a
    | _ => p.same b a
  | a =>
    if !a.isTypeName then .error .absent
    if !b.isTypeName then .error .violated
    match a, b with
    | .elementary _ s, .elementary _ t => s.converts t
    | .userType _ .enumValue path, .userType _ .enum names =>
      if ← p.same b a then return true
      return Node.identicalLists (some names) (some path.dropLast)
    | .userType _ .addressPayable _, _ =>
      if ← p.same b a then return true
      p.same b (.userType {} .address [])
    | a, b => p.same b a
termination_by sizeOf a
decreasing_by
  have := List.sizeOf_lt_of_mem ‹_ ∈ ts›
  simp at this ⊢
  omega

def compatible (p : Program) (a b : Node) : Outcome Bool := do
  match a with
  | .tupleType _ ts =>
    match b with
    | .tupleType _ us =>
      if ts.length ≠ us.length then return false
      (ts.attach.zip us).foldlM (fun so (⟨c,_⟩,u) =>
        match c with
        | .annotated _ t _ _ => do if so then p.compatible t (← componentType u) else return false
        | _ => if so then .error .absent else .ok false) true
    | _ => return false
  | a =>
    if !a.isTypeName then .error .absent
    if !b.isTypeName then .error .violated
    if ← p.converts a b then return true
    p.converts b a
termination_by sizeOf a
decreasing_by
  have := List.sizeOf_lt_of_mem ‹_ ∈ ts›
  simp at this ⊢
  omega

def commonType (p : Program) (a b : Node) : Outcome Combined := do
  if !b.isTypeName then .error .absent
  if ← p.converts b a then return .type a
  if ← p.converts a b then return .type b
  return .nothing

/-- What two types have in common. Constants stay constants, unless they are asked for as types. -/
def combined (p : Program) (asTypes : Bool) (a b : Node) : Outcome Combined := do
  match a, b with
  | .elementary _ (.boolLiteral _), .elementary _ (.boolLiteral _) =>
    return if asTypes then .type (.elementary {} (.bool "bool")) else .constant
  | .elementary _ (.numberLiteral v), .elementary _ (.numberLiteral w) =>
    match asTypes, (Elementary.numberLiteral v).abstract?, (Elementary.numberLiteral w).abstract? with
    | true, some s, some t => p.commonType (.elementary {} s) (.elementary {} t)
    | _, _, _ => return .constant
  | .tupleType _ ts, .tupleType _ us =>
    if ts.length ≠ us.length then return .nothing
    return .tuple (← (ts.attach.zip us).mapM fun (⟨t,_⟩,u) =>
      match t with
      | .annotated _ t _ _ => do p.combined asTypes t (← componentType u)
      | _ => .error .absent)
  | .tupleType .., _ => return .nothing
  | a, b => if a.isTypeName then p.commonType a b else .error .absent
termination_by sizeOf a
decreasing_by
  have := List.sizeOf_lt_of_mem ‹_ ∈ ts›
  simp at this ⊢
  omega

def abstractType (p : Program) : Node → Outcome Node
  | .elementary _ t =>
    match t.abstract? with
    | some s => .ok (.elementary {} s)
    | none => .error .absent
  | .userType i .enumValue path => do
    let target ← p.target (.userType i .enumValue path)
    if target.isOmitted then .error .absent
    return .userType {} .enum path.dropLast
  | _ => .error .absent

end Program
end Confidential
