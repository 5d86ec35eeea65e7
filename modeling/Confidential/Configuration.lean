import Confidential.Json.Parser
import Confidential.Service
import Confidential.Settings
import Confidential.SolcVersion
import Confidential.Value.Shown

/-!
Settings by name: what configuration files and the command line can change, and what can be asked
for.
-/

namespace Confidential.Settings

def compilerVersion : String :=
  "0.2.0"

inductive Kind where
  | text
  | number
  | truth

namespace Kind

def describe : Kind → String
  | .text => "<class 'str'>"
  | .number => "<class 'int'>"
  | .truth => "<class 'bool'>"

def accepts (k : Kind) (v : Value) : Bool :=
  match k, v with
  | .text, .text _ | .number, .int _ | .number, .bool _ | .truth, .bool _ => true
  | _, _ => false

end Kind

def wrongKind (v : Value) (k : Kind) : Fault :=
  .badValue (some s!"Value {v.plainText} has wrong type (expected {k.describe})")

def changeable : List (String × Kind) :=
  [("blockchain_service_address",.text),("indentation",.text),("opt_solc_optimizer_runs",.number),
   ("opt_eval_constexpr_in_circuit",.truth),("log_dir",.text),("verbosity",.number)]

def constants (tools : Toolchain) (s : Settings) : List (String × String) :=
  [("cloak_version",compilerVersion),
   ("cloak_solc_version_compatibility",SolcVersion.supported),
   ("solc_version",tools.version),
   ("zk_reserved_name_prefix","zk"),("tee_reserved_name_prefix","tee"),
   ("reserved_conflict_resolution_suffix","_zalt"),
   ("service_contract_name",Service.name),
   ("return_zk_var_name","zkRet"),("zk_field_prime_var_name","zkFieldPrime"),
   ("zk_struct_prefix","zkData"),("zk_data_var_name","zkData"),
   ("tee_code_hash_name","teeCHash"),("tee_policy_hash_name","teePHash"),
   ("return_tee_var_name","teeRet"),("tee_get_addr_function_name","getTEEAddress"),
   ("is_unit_test",(Value.bool s.isUnitTest).plainText)]

def value? (s : Settings) : String → Option Value
  | "blockchain_service_address" => some (.text s.serviceAddress)
  | "indentation" => some (.text s.indentation)
  | "opt_solc_optimizer_runs" => some s.optimizerRuns
  | "opt_eval_constexpr_in_circuit" => some (.bool s.constantsInCircuit)
  | "log_dir" => some (.text (s.logDirectory.getD ""))
  | "verbosity" => some s.verbosity
  | _ => none

def kept? (name : String) : Option String :=
  if Text.startsWith "_" name then
    (changeable.map (·.1)).find? (· == Text.dropFirst 1 name)
  else none

def internals (s : Settings) : List (String × String) :=
  [("_is_unit_test",(Value.bool s.isUnitTest).plainText),("_concrete_solc_version","None")]

/-- What the configuration does. These names can be taken, but nothing comes of it. -/
def activities : List String :=
  ["_appdirs","_load_cfg_file_if_exists","load_configuration_from_disk","override_defaults",
   "override_solc","get_contract_var_name"]

def get (tools : Toolchain) (s : Settings) (name : String) : Outcome String :=
  match s.value? ((kept? name).getD name) with
  | some v => .ok v.plainText
  | none =>
    match (constants tools s ++ s.internals).lookup name with
    | some t => .ok t
    | none => .error .absent

def put (s : Settings) (name : String) (v : Value) : Settings :=
  match name, v with
  | "blockchain_service_address", .text t => { s with serviceAddress := t }
  | "indentation", .text t => { s with indentation := t }
  | "opt_solc_optimizer_runs", v => { s with optimizerRuns := v }
  | "opt_eval_constexpr_in_circuit", .bool b => { s with constantsInCircuit := b }
  | "log_dir", .text t => { s with logDirectory := some t }
  | "verbosity", v => { s with verbosity := v }
  | _, _ => s

/-- Changes a setting. -/
def set (s : Settings) (name : String) (v : Value) : Outcome Settings :=
  match changeable.lookup name with
  | some k =>
    if !k.accepts v then .error (wrongKind v k)
    else if name == "log_dir" && v.plainText.isEmpty then .error .missingFile
    else .ok (s.put name v)
  | none =>
    if name == "_is_unit_test" then .ok { s with isUnitTest := v.isTrue }
    else if (constants {} s).any (·.1 == name) then .error .absent
    else match kept? name with
      | some setting => .ok (s.put setting v)
      | none => .ok s

def isKnown (name : String) : Bool :=
  changeable.any (·.1 == name) || (constants {} {} ++ internals {}).any (·.1 == name)
    || (kept? name).isSome || activities.contains name

def explain (remark : String) : Fault → Fault
  | .badValue (some m) => .badValue (some (m ++ remark))
  | f => f

/-- Changes settings one after the other. The settings before a failure stay changed. -/
def override (s : Settings) : List (String × Value) → Settings × Outcome Unit
  | [] => (s,.ok ())
  | (name,v) :: rest =>
    if !isKnown name then
      (s,.error (.badValue (some s!"Tried to override non-existing config value {name}")))
    else match s.set name v with
      | .ok s => override s rest
      | .error f => (s,.error (explain s!" (for entry \"{name}\")" f))

def load (s : Settings) (file text : String) : Settings × Outcome Unit :=
  let remark := s!" (in file \"{file}\")"
  match Json.read text with
  | .error e => (s,.error (.badValue (some (e.describe text ++ remark))))
  | .ok (.record fields) =>
    let (s,r) := s.override fields
    (s,r.mapError (explain remark))
  | .ok _ => (s,.error .absent)

def checkChoice (v : Value) (allowed : List Value) : Outcome Unit :=
  if allowed.any v.same then .ok ()
  else .error (.badValue (some s!"Invalid config value {v.plainText}, must be one of {(Value.list allowed).shown}"))

end Confidential.Settings
