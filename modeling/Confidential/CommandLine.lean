import Confidential.CommandLine.Arguments
import Confidential.Compilation
import Confidential.Configuration
import Confidential.Disk

/-!
The commands of the program.
-/

namespace Confidential.CommandLine

/-! ### Options -/

def settingFlags : List Flag :=
  [⟨["--blockchain-service-address"],.text⟩,⟨["--indentation"],.text⟩,
   ⟨["--opt-solc-optimizer-runs"],.number⟩,⟨["--no-opt-eval-constexpr-in-circuit"],.nothing⟩,
   ⟨["--log-dir"],.text⟩,⟨["--verbosity"],.number⟩]

def helpFlag : Flag :=
  ⟨["-h","--help"],.nothing⟩

def compilerFlag : Flag :=
  ⟨["--solc-version"],.text⟩

def commands : List (String × List Flag) :=
  [("compile",helpFlag :: settingFlags ++
      [⟨["-o","--output"],.text⟩,⟨["--log"],.nothing⟩,compilerFlag,⟨["--put-enable"],.nothing⟩]),
   ("check",helpFlag :: settingFlags ++ [compilerFlag]),
   ("solify",helpFlag :: settingFlags),
   ("version",[helpFlag]),
   ("update-solc",[helpFlag])]

def takesInput (command : String) : Bool :=
  command == "compile" || command == "check" || command == "solify"

structure Arguments where
  configFile : String := "config.json"
  command : String
  found : Found
  input : String := ""

def Arguments.read? (args : List String) : Option Arguments := do
  let (before,command,found) ← read [helpFlag,⟨["--config-file"],.text⟩] commands args
  let configFile := (before.value? "--config-file").getD "config.json"
  if takesInput command then
    match found.plain with
    | [input] => return { configFile, command, found, input }
    | _ => none
  else if found.plain.isEmpty then return { configFile, command, found }
  else none

/-- The settings that the command line asks for. Constants are computed in circuits unless it says
otherwise. -/
def Arguments.overrides (a : Arguments) : List (String × Value) :=
  let text (name key : String) : List (String × Value) :=
    ((a.found.value? name).map fun v => (key,Value.text v)).toList
  let number (name key : String) : List (String × Value) :=
    (((a.found.value? name).bind Text.integer?).map fun n => (key,Value.int n)).toList
  text "--blockchain-service-address" "blockchain_service_address" ++
    text "--indentation" "indentation" ++
    number "--opt-solc-optimizer-runs" "opt_solc_optimizer_runs" ++
    [("opt_eval_constexpr_in_circuit",.bool (!a.found.has "--no-opt-eval-constexpr-in-circuit"))] ++
    text "--log-dir" "log_dir" ++ number "--verbosity" "verbosity"

/-! ### Runs -/

structure Tools where
  toolchain : Toolchain := {}
  answer : Solc.Answer := {}

def quit {α : Type} (code : Nat) : Pass α :=
  throw (.exit (toString code))

def failWith {α : Type} (message : String) (code : Nat) : Pass α := do
  Pass.coloured .failure (Pass.emit (message ++ "\n"))
  quit code

def configurationMessage (file text : String) : Fault → String
  | .badValue (some m) => m
  | .isDirectory => s!"[Errno 21] Is a directory: '{file}'"
  | .missingFile => "[Errno 2] No such file or directory: ''"
  | .absent =>
    match Json.read text with
    | .ok (.record fields) =>
      let fixed := (Settings.constants {} {}).map (·.1)
      let name := ((fields.map (·.1)).find? fixed.contains).getD ""
      s!"property '{name}' of 'Config' object has no setter"
    | .ok v => s!"'{v.label}' object has no attribute 'items'"
    | .error _ => ""
  | _ => ""

def configure (disk : Disk) (file : String) : Pass Unit := do
  let failed {α : Type} (text : String) (f : Fault) : Pass α := do
    Pass.emit Colour.failure.start
    Pass.emit ("ERROR: Failed to load configuration files\n" ++ configurationMessage file text f ++ "\n")
    quit 42
  match disk.lookup file with
  | none => return ()
  | some none => failed "" .isDirectory
  | some (some text) =>
    let text := Text.readBack text
    let (settings,r) := (← get).settings.load file text
    modify fun p => { p with settings }
    match r with
    | .ok () => return ()
    | .error f => failed text f

def applyOverrides (disk : Disk) (a : Arguments) : Pass Unit := do
  let (settings,r) := (← get).settings.override a.overrides
  modify fun p => { p with settings }
  Pass.ofOutcome r
  match a.found.value? "--log-dir" with
  | some d => if (disk.lookup d).isNone && disk.isBlocked d then throw .notDirectory
  | none => return ()

def chooseCompiler (tools : Toolchain) (version : Option String) : Pass Toolchain := do
  match version with
  | none => return tools
  | some v =>
    let c := tools.choose v
    Pass.emit c.printed
    match c.outcome with
    | .ok () => return c.tools
    | .error (.badValue m) => failWith ("Error: " ++ m.getD "") 10
    | .error f => throw f

def reportText? : Fault → Option String
  | .malformed m | .sourceRejected m | .preprocessing m | .analysis m | .typeChecking m
  | .compilation m => some m
  | _ => none

def logFiles : List String :=
  ["compile_info.log","compile_debug.log","compile_data.log"]

/-- Starts the log files. They need a directory, which nobody makes if none was chosen. -/
def openLogs (disk : Disk) (directory : Option String) : Outcome (List (String × String)) :=
  match directory with
  | some d =>
    if disk.isBlocked d then .error (.badValue none)
    else .ok (logFiles.map fun f => (Path.join d f,""))
  | none => .error (.badValue none)

def compileInto (disk : Disk) (answer : Solc.Answer) (a : Arguments) : Pass Unit := do
  let output := (a.found.value? "--output").getD ""
  let shownOutput := Path.absolute disk.here output
  match disk.lookup output with
  | some (some _) => failWith s!"Error: '{shownOutput}' is not a directory" 2
  | some none => pure ()
  | none => if disk.isBlocked output then throw .notDirectory
  let logs ← if a.found.has "--log" then
      Pass.ofOutcome (openLogs disk (← get).settings.logDirectory)
    else pure []
  Pass.emit s!"Compiling file {Path.fileName a.input}:\n"
  let result ← Pass.attempt do
    Compilation.compile (← Pass.ofOutcome (disk.read a.input)) (a.found.has "--put-enable") answer
  modify fun p => { p with files := logs ++ p.files.map fun (f,t) => (Path.join output f,t) }
  match result with
  | .ok () => return ()
  | .error f =>
    match reportText? f with
    | some m => failWith m 3
    | none => throw f

def runOnSource (tools : Tools) (disk : Disk) (a : Arguments) : Pass Unit := do
  configure disk a.configFile
  applyOverrides disk a
  let toolchain ← chooseCompiler tools.toolchain (a.found.value? "--solc-version")
  Pass.emit s!"Using solc version {toolchain.version}\n"
  if (disk.lookup a.input).isNone then
    failWith s!"Error: input file '{Path.shown a.input}' does not exist" 1
  if a.command != "compile" then throw (.unsupported (some a.command))
  compileInto disk tools.answer a
  Pass.coloured .success (Pass.emit "Finished successfully\n")

def run (tools : Tools) (disk : Disk) (args : List String) : Pass Unit := do
  match Arguments.read? args with
  | none => quit 2
  | some a =>
    if a.found.has "--help" then quit 0
    else if a.command == "version" then Pass.emit (Settings.compilerVersion ++ "\n")
    else if a.command == "update-solc" then
      Pass.emit "ERROR: Error while updating solc\nno network\n"
    else runOnSource tools disk a

end Confidential.CommandLine
