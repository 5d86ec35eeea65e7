import Std.Data.TreeMap
import Confidential.Node.Kinds
import Confidential.Node.Numbering
import Confidential.Node.Printer
import Confidential.Partition
import Confidential.Settings

/-!
A program under analysis: its nodes by number, and what the analyses have found out about them.
-/

namespace Confidential

abbrev Table (α : Type) : Type :=
  Std.TreeMap Nat α

/-- How a function is carried out: openly, or with hidden values in a circuit, by several parties, or
inside of the trusted environment. -/
inductive Privacy where
  | pub
  | zkp
  | mpc
  | tee
deriving DecidableEq

namespace Privacy

def word : Privacy → String
  | .pub => "PUB"
  | .zkp => "ZKP"
  | .mpc => "MPC"
  | .tee => "TEE"

def rank : Privacy → Nat
  | .pub => 0
  | .zkp => 1
  | .mpc => 2
  | .tee => 3

def all : List Privacy :=
  [.pub,.zkp,.mpc,.tee]

def ofWord? (w : String) : Option Privacy :=
  all.find? fun p => p.word == w

def ofRank? (n : Int) : Option Privacy :=
  all.find? fun p => (p.rank : Int) == n

end Privacy

/-- A value that is read or written: the declaration of the variable, the key or member if only a
part of it is meant, and the index expression that leads there. -/
structure Access where
  target : Nat
  key : Option Nat := none
  via : Option Nat := none
deriving DecidableEq, Inhabited, Hashable

structure FunctionFacts where
  called : List Nat := []
  isRecursive : Bool := false
  hasStaticBody : Bool := true
  canBePrivate : Bool := true
  verifiedOutside : Bool := false
  privacy : Privacy := .pub
  participants : Option (List Node) := none

structure Links where
  parents : Table Nat := {}
  namespaces : Table (List Nat) := {}
  names : Table (List (String × Nat)) := {}
  targets : Table Nat := {}
  statements : Table Nat := {}
  functions : Table Nat := {}

structure Program where
  settings : Settings := {}
  lines : List String := []
  root : Nat := 0
  nodes : Table Node := {}
  next : Nat := 1
  links : Links := {}
  types : Table Node := {}
  keys : Table Nat := {}
  hidden : Table Bool := {}
  privateOperators : Table Bool := {}
  insidePrivateBranch : Bool := false
  before : Table (Partition Label) := {}
  after : Table (Partition Label) := {}
  modified : Table (List Access) := {}
  read : Table (List Access) := {}
  functionFacts : Table FunctionFacts := {}
  /-- The definitions that every program can use, and the names of these and of the variables that
  every program can use. -/
  globalDefinitions : List Nat := []
  globalNames : List (String × Nat) := []
  arrayLength : Nat := 0
  output : String := ""
  files : List (String × String) := []
deriving Inhabited

end Confidential
