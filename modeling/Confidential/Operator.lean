/-!
The built-in operators: signs, written forms and families.
-/

namespace Confidential

inductive Operator where
  | power
  | times
  | divide
  | modulo
  | plus
  | minus
  | positive
  | negative
  | less
  | greater
  | lessEqual
  | greaterEqual
  | equal
  | unequal
  | both
  | either
  | negation
  | bitOr
  | bitAnd
  | bitXor
  | bitNot
  | shiftLeft
  | shiftRight
  | parenthesis
  | conditional
deriving DecidableEq, Inhabited

namespace Operator

variable (op : Operator)

def all : List Operator :=
  [.power,.times,.divide,.modulo,.plus,.minus,.positive,.negative,.less,.greater,.lessEqual,
   .greaterEqual,.equal,.unequal,.both,.either,.negation,.bitOr,.bitAnd,.bitXor,.bitNot,
   .shiftLeft,.shiftRight,.parenthesis,.conditional]

/-- The name of an operator. The signs of numbers carry a word in front, to keep them apart from
addition and subtraction. -/
def name : Operator → String
  | .power => "**"
  | .times => "*"
  | .divide => "/"
  | .modulo => "%"
  | .plus => "+"
  | .minus => "-"
  | .positive => "sign+"
  | .negative => "sign-"
  | .less => "<"
  | .greater => ">"
  | .lessEqual => "<="
  | .greaterEqual => ">="
  | .equal => "=="
  | .unequal => "!="
  | .both => "&&"
  | .either => "||"
  | .negation => "!"
  | .bitOr => "|"
  | .bitAnd => "&"
  | .bitXor => "^"
  | .bitNot => "~"
  | .shiftLeft => "<<"
  | .shiftRight => ">>"
  | .parenthesis => "parenthesis"
  | .conditional => "ite"

def ofName? (name : String) : Option Operator :=
  all.find? fun op => op.name == name

def frame : Operator → List String
  | .positive => ["+",""]
  | .negative => ["-",""]
  | .negation => ["!",""]
  | .bitNot => ["~",""]
  | .parenthesis => ["(",")"]
  | .conditional => [""," ? "," : ",""]
  | op => [""," " ++ op.name ++ " ",""]

def arity : Nat :=
  op.frame.length - 1

def template : String :=
  String.intercalate "\x7b\x7d" op.frame

/-- Puts operands into the frame; operands too many are left out. -/
def fill : List String → List String → Option String
  | [], _ => some ""
  | [last], _ => some last
  | piece :: pieces, arg :: args => (fill pieces args).map fun rest => piece ++ arg ++ rest
  | _ :: _, [] => none

def fill? (args : List String) : Option String :=
  fill op.frame args

def isArithmetic : Bool :=
  [.power,.times,.divide,.modulo,.plus,.minus,.positive,.negative].contains op

def isComparison : Bool :=
  [.less,.greater,.lessEqual,.greaterEqual].contains op

def isEquality : Bool :=
  [.equal,.unequal].contains op

def isBoolean : Bool :=
  [.both,.either,.negation].contains op

def isBitwise : Bool :=
  [.bitOr,.bitAnd,.bitXor,.bitNot].contains op

def isShift : Bool :=
  [.shiftLeft,.shiftRight].contains op

def hasShortCircuit : Bool :=
  [.conditional,.both,.either].contains op

/-- Can the operation be done on hidden values? Equality and conditionals depend on their operands
as well. -/
def canBePrivate : Bool :=
  !([.power,.modulo,.divide].contains op)

end Operator
end Confidential
