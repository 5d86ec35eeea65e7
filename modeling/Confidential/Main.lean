import Confidential.CommandLine

/-!
The program.
-/

namespace Confidential.Main

def entry? (path : String) : IO (Option (String × Option String)) := do
  try
    return some (path,some (← IO.FS.readFile path))
  catch e =>
    match e with
    | .noFileOrDirectory .. => return none
    | _ => return some (path,none)

def disk (args : List String) : IO Disk := do
  match CommandLine.Arguments.read? args with
  | none => return {}
  | some a =>
    let paths := [a.configFile,a.input] ++ (a.found.value? "--output").toList ++
      (a.found.value? "--log-dir").toList
    return { entries := ← paths.filterMapM entry?, here := (← IO.currentDir).toString }

def directoryOf (path : String) : String :=
  String.intercalate "/" (path.splitOn "/").dropLast

def writeFiles (files : List (String × String)) : IO Unit :=
  files.forM fun (path,text) => do
    let directory := directoryOf path
    if !directory.isEmpty then IO.FS.createDirAll directory
    IO.FS.writeFile path text

end Confidential.Main

open Confidential in
def main (args : List String) : IO UInt32 := do
  let (result,p) := (CommandLine.run {} (← Main.disk args) args).run Globals.base
  Main.writeFiles p.files
  IO.print p.output
  match result with
  | .ok () => return 0
  | .error (.exit code) => return (code.toNat?.getD 1).toUInt32
  | .error _ => return 1
