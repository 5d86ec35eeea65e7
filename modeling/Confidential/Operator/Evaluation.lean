import Confidential.Elementary

/-!
The values of operations on constants.
-/

namespace Confidential

inductive Constant where
  | bool (value : Bool)
  | int (value : Int)

namespace Constant

def toInt : Constant → Int
  | .bool b => if b then 1 else 0
  | .int n => n

def isTrue (c : Constant) : Bool :=
  c.toInt != 0

end Constant

namespace Bits

def without (m n : Nat) : Nat :=
  m - (m &&& n)

/-- Conjunction of numbers of any sign; below zero all bits in front are set. -/
def conj : Int → Int → Int
  | .ofNat m, .ofNat n => .ofNat (m &&& n)
  | .ofNat m, .negSucc n => .ofNat (without m n)
  | .negSucc m, .ofNat n => .ofNat (without n m)
  | .negSucc m, .negSucc n => .negSucc (m ||| n)

def disj : Int → Int → Int
  | .ofNat m, .ofNat n => .ofNat (m ||| n)
  | .ofNat m, .negSucc n => .negSucc (without n m)
  | .negSucc m, .ofNat n => .negSucc (without m n)
  | .negSucc m, .negSucc n => .negSucc (m &&& n)

def differ : Int → Int → Int
  | .ofNat m, .ofNat n => .ofNat (m ^^^ n)
  | .ofNat m, .negSucc n => .negSucc (m ^^^ n)
  | .negSucc m, .ofNat n => .negSucc (m ^^^ n)
  | .negSucc m, .negSucc n => .ofNat (m ^^^ n)

def tooMany : Nat :=
  0x10000000000

def uncountable : Nat :=
  30 * 0x8000000000000000

def shiftLeft (a : Int) (n : Nat) : Outcome Int :=
  if a = 0 then .ok 0
  else if uncountable ≤ n then .error .overflow
  else if tooMany ≤ n then .error .outOfMemory
  else .ok (a * Nat.pow 2 n)

def shiftRight (a : Int) (n : Nat) : Int :=
  if a.natAbs.log2 < n then if a < 0 then -1 else 0 else Int.fdiv a (Nat.pow 2 n)

end Bits

namespace Operator

/-- An operation that gives a truth value for truth values. -/
def bitwise (f : Int → Int → Int) (g : Bool → Bool → Bool) : Constant → Constant → Constant
  | .bool a, .bool b => .bool (g a b)
  | a, b => .int (f a.toInt b.toInt)

def powerOf (a b : Int) : Outcome Int :=
  if 0 ≤ b then .ok (Int.pow a b.toNat)
  else if a = 0 then .error .divisionByZero
  else .error (.unsupported none)

def evaluate (op : Operator) (args : List Constant) : Outcome Constant :=
  match args with
  | [a] =>
    match op with
    | .positive | .parenthesis => .ok a
    | .negative => .ok (.int (-a.toInt))
    | .bitNot => .ok (.int (-a.toInt - 1))
    | .negation => .ok (.bool !a.isTrue)
    | _ => .error .misused
  | [a,b] =>
    match op with
    | .plus => .ok (.int (a.toInt + b.toInt))
    | .minus => .ok (.int (a.toInt - b.toInt))
    | .times => .ok (.int (a.toInt * b.toInt))
    | .power => .int <$> powerOf a.toInt b.toInt
    | .divide => if b.isTrue then .ok (.int (Int.fdiv a.toInt b.toInt)) else .error .divisionByZero
    | .modulo => if b.isTrue then .ok (.int (Int.fmod a.toInt b.toInt)) else .error .divisionByZero
    | .shiftLeft =>
      if b.toInt < 0 then .error (.badValue none) else .int <$> Bits.shiftLeft a.toInt b.toInt.toNat
    | .shiftRight =>
      if b.toInt < 0 then .error (.badValue none) else .ok (.int (Bits.shiftRight a.toInt b.toInt.toNat))
    | .bitOr => .ok (bitwise Bits.disj or a b)
    | .bitAnd => .ok (bitwise Bits.conj and a b)
    | .bitXor => .ok (bitwise Bits.differ xor a b)
    | .less => .ok (.bool (a.toInt < b.toInt))
    | .greater => .ok (.bool (b.toInt < a.toInt))
    | .lessEqual => .ok (.bool (a.toInt ≤ b.toInt))
    | .greaterEqual => .ok (.bool (b.toInt ≤ a.toInt))
    | .equal => .ok (.bool (a.toInt = b.toInt))
    | .unequal => .ok (.bool (a.toInt ≠ b.toInt))
    | .both => .ok (if a.isTrue then b else a)
    | .either => .ok (if a.isTrue then a else b)
    | _ => .error .misused
  | [a,b,c] =>
    match op with
    | .conditional => .ok (if a.isTrue then b else c)
    | _ => .error .misused
  | _ => .error .misused

def operandType? (op : Operator) : Option Elementary :=
  if op.isArithmetic || op.isComparison || op.isBitwise || op.isShift then some Elementary.anyNumber
  else if op.isBoolean then some (.bool "bool")
  else none

def resultType? (op : Operator) : Option Elementary :=
  if op.isArithmetic || op.isBitwise || op.isShift then some Elementary.anyNumber
  else if op.isComparison || op.isBoolean || op.isEquality then some (.bool "bool")
  else none

end Operator
end Confidential
