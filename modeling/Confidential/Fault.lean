/-!
Why an operation gives no result.
-/

namespace Confidential

inductive Fault where
  | malformed (message : String)
  /-- A malformed source, as the whole pipeline reports it. -/
  | sourceRejected (message : String)
  | unknownName (message : String)
  /-- A problem of scopes and names, as the whole pipeline reports it. -/
  | preprocessing (message : String)
  /-- A node of the syntax tree that a check refuses. -/
  | refused (message : String)
  /-- A refused node, as the whole pipeline reports it. -/
  | analysis (message : String)
  | illTyped (message : String)
  /-- A type that differs from the type asked for. -/
  | mismatch (message : String)
  /-- Two operands change the same value, and nothing says which of them is evaluated first. -/
  | unordered
  | misplacedReturn (message : String)
  /-- A typing problem, as the whole pipeline reports it. -/
  | typeChecking (message : String)
  | compilation (message : String)
  | solidityErrors (message : String)
  | solidityStopped
  /-- A value outside the values allowed, with the reason if one is given. -/
  | badValue (message : Option String)
  /-- An operation that is not provided for this kind of value. -/
  | unsupported (message : Option String)
  /-- A value used in a way that its kind does not allow. -/
  | misused (message : Option String := none)
  | violated
  | absent
  | unknownKey
  | outOfRange
  | unassigned
  | unavailable
  | divisionByZero
  | overflow
  | outOfMemory
  | missingFile
  | isDirectory
  | notDirectory
  | failedCommand
  | noNetwork
  | exit (code : String)
deriving DecidableEq, Inhabited

def Fault.message? : Fault → Option String
  | malformed m | sourceRejected m | unknownName m | preprocessing m | refused m | analysis m | illTyped m
  | mismatch m | misplacedReturn m | typeChecking m | compilation m | solidityErrors m => some m
  | badValue m | unsupported m | misused m => m
  | exit code => some code
  | _ => none

abbrev Outcome (α : Type) : Type :=
  Except Fault α

end Confidential
