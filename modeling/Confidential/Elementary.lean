import Confidential.Node.Printer

/-!
Elementary types: their width, the values they hold, and which converts to which.
-/

namespace Confidential.Literal

def bitLength (n : Nat) : Nat :=
  if n = 0 then 0 else n.log2 + 1

/-- Bits that a value needs: below zero one bit more for the sign, except for the lowest value of
a width. -/
def bitsNeeded (v : Int) : Nat :=
  let len := bitLength v.natAbs
  if v < 0 then if v = -(Nat.pow 2 (len - 1) : Int) then len else len + 1 else len

def width (v : Int) : Nat :=
  max ((bitsNeeded v + 7) / 8 * 8) 8

def isAccepted (v : Int) : Bool :=
  width v ≤ 256

end Confidential.Literal

namespace Confidential.Elementary

/-- Number of bits, for truth values and numbers. A number type without a width has 256. -/
def bits? : Elementary → Option Int
  | .bool _ | .boolLiteral _ => some 1
  | .number _ _ n | .int _ n | .uint _ n => some (if n = 0 then 256 else n)
  | .numberLiteral v => some (Literal.width v)
  | .named _ | .bytes _ _ | .string => none

def isNumber : Elementary → Bool
  | .number .. | .int .. | .uint .. | .numberLiteral .. => true
  | _ => false

def isLiteral : Elementary → Bool
  | .numberLiteral _ | .boolLiteral _ => true
  | _ => false

def isBoolean : Elementary → Bool
  | .bool _ | .boolLiteral _ => true
  | _ => false

def isSigned : Elementary → Bool
  | .number _ signed _ => signed
  | .int .. => true
  | .numberLiteral v => v < 0
  | _ => false

/-- Does the number type hold the value? A width that leaves no room for the sign is an error. -/
def represents (t : Elementary) (v : Int) : Outcome Bool :=
  match t.bits? with
  | none => .error .absent
  | some w =>
    if t.isSigned then
      if w < 1 then .error (.badValue none)
      else .ok (decide (-(Nat.pow 2 (w - 1).toNat : Int) ≤ v ∧ v < Nat.pow 2 (w - 1).toNat))
    else
      if w < 0 then .error (.badValue none)
      else .ok (decide (0 ≤ v ∧ v < Nat.pow 2 w.toNat))

/-- The number behind the stem of a type name, such as the `8` of `uint8`. The stem alone has none. -/
def sizeBehind (stem name : String) : Outcome (Option Int) :=
  if !Text.startsWith stem name then .error .violated
  else if name == stem then .ok none
  else match Text.integer? (Text.dropFirst stem.length name) with
    | some n => .ok (some n)
    | none => .error (.badValue none)

def ofNumberName (name stem : String) (signed : Bool) (bits : Option Int) : Outcome Elementary := do
  match bits with
  | some w => if Text.startsWith stem name then return .number name signed w else .error .violated
  | none => return .number name signed ((← sizeBehind stem name).getD 0)

def ofIntName (name : String) : Outcome Elementary := do
  return .int name ((← sizeBehind "int" name).getD 0)

def ofUintName (name : String) : Outcome Elementary := do
  return .uint name ((← sizeBehind "uint" name).getD 0)

def ofBytesName (name : String) : Outcome Elementary := do
  return .bytes name (← sizeBehind "bytes" name)

/-- The type of a number literal. Literals wider than a machine word are refused. -/
def ofLiteral (value : Int) : Outcome Elementary :=
  if Literal.isAccepted value then .ok (.numberLiteral value) else .error .violated

/-- Types are the same if their names are. -/
def same : Elementary → Elementary → Bool
  | .bool _, .bool _ => true
  | .boolLiteral _, .boolLiteral _ => true
  | .numberLiteral _, .numberLiteral _ => true
  | .named a, .named b | .named a, .bytes b _ => a == b
  | .named a, .string => a == "string"
  | .number a _ _, .number b _ _ | .number a _ _, .int b _ | .number a _ _, .uint b _
  | .int a _, .number b _ _ | .int a _, .int b _ | .int a _, .uint b _
  | .uint a _, .number b _ _ | .uint a _, .int b _ | .uint a _, .uint b _ => a == b
  | .int a _, .numberLiteral v | .uint a _, .numberLiteral v => a == toString v
  | .bytes a _, t => a == t.name
  | .string, t => t.name == "string"
  | _, _ => false

def anyNumber : Elementary :=
  .number "" true 256

def converts (a b : Elementary) : Outcome Bool :=
  match a, b with
  | .numberLiteral v, b =>
    if b.isNumber && !b.isLiteral then b.represents v else .ok (same b a)
  | .int _ _, .int _ _ | .uint _ _, .uint _ _ =>
    .ok (same b a || (a.bits?.getD 0) ≤ (b.bits?.getD 0))
  | .int _ _, .number _ _ _ | .uint _ _, .number _ _ _ | .number _ _ _, .number _ _ _ => .ok true
  | .boolLiteral _, .bool _ => .ok true
  | a, b => .ok (same b a)

def abstract? : Elementary → Option Elementary
  | .boolLiteral _ => some (.bool "bool")
  | .numberLiteral v =>
    let w := Literal.width v
    some (if v < 0 then .int s!"int{w}" w else .uint s!"uint{w}" w)
  | _ => none

end Confidential.Elementary
