import Confidential.Program.Query
import Confidential.Value.Shown

/-!
The Solidity compiler: what it is asked, and how its answer is reported on the terminal.
-/

namespace Confidential

inductive Colour where
  | failure
  | warning
  | success

namespace Colour

def start : Colour → String
  | .failure => "\x1b[91m"
  | .warning => "\x1b[93m"
  | .success => "\x1b[92m"

def stop : String :=
  "\x1b[0m"

end Colour

def Pass.coloured {α : Type} (c : Colour) (work : Pass α) : Pass α := do
  emit c.start
  let a ← work
  emit Colour.stop
  return a

def Pass.banner (title : String) : Pass Unit :=
  let edge := String.ofList (List.replicate (title.length + 4) '#')
  say 1 s!"{edge}\n# {title} #\n{edge}\n"

def Pass.warn (n : Node) (kind message : String) : Pass Unit := do
  if !(← get).settings.isUnitTest then
    coloured .warning do
      let report ← ask fun p => p.report n message
      say 1 s!"\n\nWARNING: {kind}{report}"

end Confidential

namespace Confidential.Solc

structure Answer where
  output : Value := .record []
  fails : Bool := false

structure Request where
  file : String
  path : String
  libraries : Option Value := none
  /-- The optimizer is off below zero. -/
  runs : Int := -1
  selection : List Value := ["metadata","evm.bytecode","evm.deployedBytecode"].map .text

def Request.settings (r : Request) : Value :=
  .record <|
    [("outputSelection",.record [("*",.record [("*",.list r.selection)])])] ++
    (if 0 ≤ r.runs then [("optimizer",.record [("enabled",.bool true),("runs",.int r.runs)])] else []) ++
    (r.libraries.map fun ls => ("libraries",Value.record [(r.file,ls)])).toList

def Request.toValue (r : Request) : Value :=
  .record [("language",.text "Solidity"),
    ("sources",.record [(r.file,.record [("urls",.list [.text r.path])])]),
    ("settings",r.settings)]

def Answer.result (a : Answer) : Outcome Value :=
  if a.fails then .error .solidityStopped else .ok a.output

/-- The text up to and including position `i`; below -1 positions count from the end. -/
def upTo (code : String) (i : Int) : List Char :=
  let cs := code.toList
  if 0 ≤ i + 1 then cs.take (i + 1).toNat else cs.take (cs.length + (i + 1)).toNat

def lineAndColumn (code : String) (i : Int) : Int × Int :=
  let before := upTo code i
  let onLine := (before.reverse.takeWhile (· != '\n')).length
  ((Text.linesKept before).length,i - (before.length - onLine))

def has (v : Value) (key : String) : Outcome Bool :=
  match v with
  | .record fields => .ok (fields.any (·.1 == key))
  | .text s => .ok (Text.contains key s)
  | .list vs => .ok (vs.any fun v => v matches .text _ && v.plainText == key)
  | _ => .error .misused

def asNumber : Value → Outcome Int
  | .int n => .ok n
  | .bool b => .ok (if b then 1 else 0)
  | _ => .error .misused

/-- Where a problem stands, by which problems are ordered; -1 if it has no place. -/
def start (problem : Value) : Outcome Value := do
  if ← has problem "sourceLocation" then (← problem.field "sourceLocation").field "start"
  else return .int (-1)

def ordered (problems : List Value) : Outcome (List Value) := do
  let keys ← problems.mapM start
  if problems.length < 2 then return problems
  let keyed ← (keys.zip problems).mapM fun (k,q) => do return (← asNumber k,q)
  return (keyed.mergeSort fun a b => a.1 ≤ b.1).map (·.2)

structure File where
  name : String
  code : String
  shown : String

structure Reported where
  /-- The text about the last place. A problem without a place is reported with the text before it. -/
  last : Option String := none
  fatal : String := ""
  failed : Bool := false

def placeReport (file : File) (problem : Value) : Outcome (String × Bool) := do
  let location ← problem.field "sourceLocation"
  let name ← location.field "file"
  if name matches .text _ && name.plainText == file.name then
    let (line,column) := lineAndColumn file.code (← asNumber (← location.field "start"))
    let place ← Report.location line (column + 1) (Text.lines file.shown) none none none
    return (place ++ "\n",true)
  else
    let index := (← location.field "start").plainText
    return (s!"In imported file '{name.plainText}' idx: {index}\n",false)

def isError (problem : Value) : Outcome Bool := do
  let severity ← problem.field "severity"
  return severity matches .text _ && severity.plainText == "error"

def problemReport (problem : Value) (fatal : Bool) (place : Option String) : Outcome String := do
  let severity ← match ← problem.field "severity" with
    | .text s => pure s.toUpper
    | _ => .error .absent
  let kind ← if fatal then do pure (← problem.field "type").plainText else pure ""
  let place ← match place with
    | some t => pure t
    | none => .error .unassigned
  let message := (← problem.field "message").plainText
  return "\n" ++ severity ++ ": " ++ kind ++ "\n" ++ place ++ "\n" ++ message ++ "\n"

def licenceWarning : String :=
  "1878"

def isSilent (problem : Value) : Outcome Bool := do
  if !(← has problem "errorCode") then return false
  let code ← problem.field "errorCode"
  return code matches .text _ && code.plainText == licenceWarning

def reportProblem (file : File) (so : Reported) (problem : Value) : Pass Reported := do
  let fatal ← Pass.ofOutcome (isError problem)
  Pass.coloured (if fatal then .failure else .warning) do
    let so ← if ← Pass.ofOutcome (has problem "sourceLocation") then do
        let (place,inFile) ← Pass.ofOutcome (placeReport file problem)
        pure { so with last := some place, failed := so.failed || (inFile && fatal) }
      else pure so
    let report ← Pass.ofOutcome (problemReport problem fatal so.last)
    let so := { so with last := some report }
    if fatal then return { so with fatal := so.fatal ++ report }
    if !(← Pass.ofOutcome (isSilent problem)) then Pass.say 1 report
    return so

def reportAll (file : File) (output : Value) : Pass Unit := do
  if ← Pass.ofOutcome (has output "errors") then
    Pass.say 1 ""
    let problems ← match ← Pass.ofOutcome (output.field "errors") with
      | .list problems => Pass.ofOutcome (ordered problems)
      | _ => throw .misused
    let so ← problems.foldlM (reportProblem file) {}
    Pass.say 1 ""
    if so.failed then throw (.solidityErrors so.fatal)

def dryRun (a : Answer) : Outcome Unit :=
  if a.fails then .error (.solidityErrors "") else .ok ()

def check (name text : String) (a : Answer) : Pass Unit :=
  reportAll { name, code := Text.readBack text, shown := text } a.output

end Confidential.Solc
