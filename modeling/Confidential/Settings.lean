import Confidential.Value

/-!
What a user can choose.
-/

namespace Confidential

structure Settings where
  serviceAddress : String := ""
  indentation : String := "    "
  /-- How often the Solidity compiler assumes that the code runs; a truth value counts as a number. -/
  optimizerRuns : Value := .int 50
  constantsInCircuit : Bool := true
  verbosity : Value := .int 1
  logDirectory : Option String := none
  /-- Tests of the program itself print nothing. -/
  isUnitTest : Bool := false

def Settings.prints (s : Settings) (level : Int) : Bool :=
  !s.isUnitTest && match s.verbosity with
    | .int n => level ≤ n
    | .bool b => level ≤ if b then 1 else 0
    | _ => false
end Confidential
