import Confidential.Fault

/-!
Messages that point into a source text.
-/

namespace Confidential.Report

def entry {α : Type} (xs : List α) (i : Int) : Outcome α :=
  let j := if i < 0 then i + xs.length else i
  if j < 0 then .error .outOfRange
  else match xs[j.toNat]? with
    | some x => .ok x
    | none => .error .outOfRange

def expandTabs (line : String) : String :=
  String.join (line.toList.map fun c => if c = '\t' then "    " else String.singleton c)

def pointer (line : String) (n : Nat) : String :=
  String.join ((line.toList.take n).map fun c => if c = '\t' then "----" else "-") ++ "/"

def excerpt (source : List String) (first : Int) (count : Nat) : Outcome String := do
  let shown ← (List.range count).mapM fun (k : Nat) => do
    return expandTabs (← entry source (first + k - 1)) ++ "\n"
  return String.join shown

/-- Where something stands: the place, the function and contract around it if known, the source from the
line where its statement starts, and a pointer to its column. -/
def location (line column : Int) (source : List String) (contract function : Option String)
    (statementLine : Option Int) : Outcome String := do
  let place := s!"At line: {line};{column}"
  if line ≤ 0 || column ≤ 0 || (source.length : Int) < line then return place
  let context ← match function, contract with
    | some f, some c => pure s!", in function '{f}' of contract '{c}'"
    | some _, none => .error .violated
    | none, some c => pure s!", in contract '{c}'"
    | none, none => pure ""
  let head := place ++ context ++ "\n"
  let first := statementLine.getD line
  if first = -1 then return head
  let body ← excerpt source first (line + 1 - first).toNat
  let last ← entry source (line - 1)
  return head ++ body ++ pointer last (column - 1).toNat

end Confidential.Report
