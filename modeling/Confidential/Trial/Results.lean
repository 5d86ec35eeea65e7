import Confidential.Decimal
import Confidential.Disk

/-!
What trial runs have measured: time, memory and cost of each scenario with each backend.
-/

namespace Confidential.Trial

def doubled : List Char → List Char
  | [] => []
  | c :: rest => if c = '"' then '"' :: '"' :: doubled rest else c :: doubled rest

def field (s : String) : String :=
  if s.toList.any fun c => [',','"','\r','\n'].contains c then
    String.ofList ('"' :: doubled s.toList ++ ['"'])
  else s

def row (fields : List String) : String :=
  String.intercalate "," (fields.map field)

structure Sheet where
  head : List String
  rows : List (List String)

def Sheet.lines (s : Sheet) : List String :=
  row s.head :: (s.rows.map row).mergeSort (· ≤ ·)

/-! ### Numbers in logs -/

def pointed? (cs : List Char) : Option (String × List Char) :=
  let whole := cs.takeWhile Char.isDigit
  match cs.drop whole.length with
  | '.' :: rest =>
    let fraction := rest.takeWhile Char.isDigit
    some (String.ofList (whole ++ '.' :: fraction),rest.drop fraction.length)
  | _ => none

def numberBetween? (before after : List Char) : List Char → Option String
  | [] => none
  | c :: rest =>
    let here := if before.isPrefixOf (c :: rest) then pointed? ((c :: rest).drop before.length) else none
    match here with
    | some (number,more) => if after.isPrefixOf more then some number else numberBetween? before after rest
    | none => numberBetween? before after rest

def setupNames : List String :=
  ["constructor_0","announcePk","deploy_pki","deploy_verify_libs"]

def ignoredContexts : List (List Char) :=
  "[]".toList :: setupNames.map fun n => ("[[\"transaction\", \"" ++ n ++ "\"]]").toList

def contextEnd? (word : List Char) : List Char → Option Nat
  | [] => none
  | c :: rest =>
    if word.isPrefixOf (c :: rest) && !ignoredContexts.any (·.isPrefixOf ((c :: rest).drop word.length)) then
      some word.length
    else if c = '\n' then none
    else (contextEnd? word rest).map (· + 1)

def cost? (cs : List Char) : Option (Nat × Nat) := do
  let before := "\"key\": \"gas\", \"value\": ".toList
  let rest := cs.drop before.length
  let digits := rest.takeWhile Char.isDigit
  match before.isPrefixOf cs, digits, rest.drop digits.length with
  | true, _ :: _, ',' :: more =>
    let n ← contextEnd? "\"context\": ".toList more
    return (digits.foldl (fun so d => so * 10 + (d.toNat - 48)) 0,before.length + digits.length + 1 + n)
  | _, _, _ => none

/-- The costs in a log; `skip` characters still belong to the last record. -/
def costs : Nat → List Char → List Nat
  | _, [] => []
  | skip + 1, _ :: rest => costs skip rest
  | 0, c :: rest =>
    match cost? (c :: rest) with
    | some (n,size) => n :: costs (size - 1) rest
    | none => costs 0 rest

/-! ### Averages -/

def average? (xs : List Float) : Option Float :=
  if xs.isEmpty then none else some (xs.foldl (· + ·) 0.0 / Float.ofNat xs.length)

def greatest? : List Float → Option Float
  | [] => none
  | x :: xs => some (xs.foldl (fun so y => if y > so then y else so) x)

def memory? (s : String) : Option (List Float) :=
  ((Text.lines s).drop 1).mapM fun l => do Decimal.read? (← (l.splitOn " ")[1]?)

/-! ### Trials -/

def measured? (disk : Disk) (directory : String) : Option (List Float) := do
  let file (name : String) : Option String := (disk.read (directory ++ "/" ++ name)).toOption
  let number (key after name : String) : Option Float := do
    let text ← file name
    Decimal.read? (← numberBetween? ("\x7b\"key\": \"" ++ key ++ "\", \"value\": ").toList after.toList text.toList)
  let compileTime ← number "compileFull" "," "compile_data.log"
  let compileMemory ← memory? (← file "mprof_compile.dat")
  let compileAverage ← average? compileMemory
  let compilePeak ← greatest? compileMemory
  let runTime ← number "all_transactions" ", \"context\":" "log_data.log"
  let gas := costs 0 (← file "log_data.log").toList
  let cost ← if gas.isEmpty then none else some (Float.ofNat (gas.foldl (· + ·) 0) / Float.ofNat gas.length)
  let runMemory ← memory? (← file "mprof_run.dat")
  return [compileTime,compileAverage,compilePeak,runTime,cost,← average? runMemory,← greatest? runMemory]

def backends : List String :=
  ["dummy","ecdh-chaskey","ecdh-aes","rsa-pkcs1.5","rsa-oaep"]

def sheetNames : List String :=
  ["compilation time","compilation average memory","compilation peak memory","scenario runtime",
   "scenario average gas","scenario average memory","scenario peak memory"]

/-- The sheets of all scenarios below a directory. A trial without all its values counts as zero. -/
def sheets (disk : Disk) (directory : String) : Outcome (List (String × Sheet)) := do
  let names ← disk.listing directory
  let scenarios := names.filter fun n => disk.isDirectory (directory ++ "/" ++ n)
  if scenarios.isEmpty then .error .outOfRange
  else
    let values := scenarios.map fun s =>
      (s,backends.map fun b => measured? disk (directory ++ "/" ++ s ++ "/out_" ++ b))
    return sheetNames.zipIdx.map fun (name,k) =>
      (name ++ ".csv",
        { head := "scenario" :: backends
          rows := values.map fun (s,trials) =>
            s :: trials.map fun t =>
              match t.bind (·[k]?) with
              | some x => Decimal.text x "nan" "inf"
              | none => "0" })

end Confidential.Trial
