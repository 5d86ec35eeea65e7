import Confidential.Disk

/-!
The commands that run all trials below a directory.
-/

namespace Confidential.Trial

/-- The backends that trials use; others need too much space. -/
def plannedBackends : List String :=
  ["dummy","ecdh-chaskey","ecdh-aes"]

def isSourceName (name : String) : Bool :=
  Text.endsWith ".sol" name || Text.endsWith ".zkay" name

def measuredCommand (file command : String) : String :=
  "mprof run --include-children --nopython -o '" ++ file ++ "' " ++ command

def compileCommand (source output backend : String) : String :=
  measuredCommand (output ++ "/mprof_compile.dat")
    ("zkay compile '" ++ source ++ "' --verbosity 0 --crypto-backend " ++ backend ++
      " --opt-hash-threshold 0 -o '" ++ output ++ "' --log --log-dir '" ++ output ++ "'")

def scenarioCommand (scenario output : String) : String :=
  measuredCommand (output ++ "/mprof_run.dat") ("python '" ++ scenario ++ "' '" ++ output ++ "'")

/-- The commands of one trial, with the disk behind it. A directory without a source has no trial. -/
def trial (backend : String) (disk : Disk) (directory : String) : Outcome (List String × Disk) := do
  let shown (path : String) := if path.isEmpty then disk.here else disk.here ++ "/" ++ path
  let names ← disk.listing directory
  match names.find? isSourceName with
  | none => return ([],disk)
  | some source =>
    let output := directory ++ "/out_" ++ backend
    let scenario := directory ++ "/scenario.py"
    let run := if (disk.lookup scenario).isSome then [scenarioCommand (shown scenario) (shown output)] else []
    return (compileCommand (shown (directory ++ "/" ++ source)) (shown output) backend :: run,
      disk.makeDirectory output)

def plan (disk : Disk) (base : String) : Outcome (List String × Disk) := do
  let base := Path.resolve base
  plannedBackends.foldlM (fun (so : List String × Disk) backend => do
    let names ← so.2.listing base
    names.foldlM (fun (so : List String × Disk) name => do
      let directory := if base.isEmpty then name else base ++ "/" ++ name
      if so.2.isDirectory directory then
        let (commands,disk) ← trial backend so.2 directory
        return (so.1 ++ commands,disk)
      else return so) so) ([],disk)

end Confidential.Trial
