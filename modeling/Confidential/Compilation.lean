import Confidential.Accessors
import Confidential.Json
import Confidential.Service
import Confidential.Solc
import Confidential.Transform.Ciphertext
import Confidential.Transform.Marking

/-!
From a source to its privacy policy: reading, checking, linking, effects. Compiling a source: its policy,
the private contract for the trusted environment, and the public contract for the chain, which knows the
hashes of the other two.
-/

namespace Confidential.Pipeline

open Pass

def asRejection : Fault → Fault
  | .malformed m => .sourceRejected ("\n\nSYNTAX ERROR: " ++ m)
  | f => f

def asSymbolError : Fault → Fault
  | .unknownName m => .preprocessing ("\n\nSYMBOL ERROR: " ++ m)
  | f => f

def asAnalysisError : Fault → Fault
  | .unknownName m | .refused m | .illTyped m | .mismatch m => .analysis ("\n\nANALYSIS ERROR: " ++ m)
  | f => f

def asCompilation : Fault → Fault
  | .solidityErrors m => .compilation m
  | f => f

def checkedFile : String :=
  "$FILE"

def checkSolidity (code : String) (a : Solc.Answer) : Pass Unit :=
  step "Type checking with solc" (rename asCompilation (Solc.check checkedFile code a))

def analyse : Pass PrivacyPolicy :=
  step "Preprocessing AST" do
    linkParents (← get).tree
    rename asSymbolError (linkAll (← get).tree)
    rename asAnalysisError do
      findEffects
      ask PrivacyPolicy.ofProgram

/-- The policy of a source. The Solidity code is made in any case, and checked if there is a
compiler. -/
def process (text : String) (compiler : Option Solc.Answer) : Pass PrivacyPolicy := do
  step "Parsing" (rename asRejection (load text))
  let code ← ask fun p => p.solidity p.tree
  match compiler with
  | some a => checkSolidity code a
  | none => pure ()
  analyse

end Confidential.Pipeline

namespace Confidential.Compilation

open Pass

def extendContracts (f : Node → Outcome (List Node)) : Node → Outcome Node
  | .source i units head single => do
    let units ← units.mapM fun u => match u with
      | .contract j name us before after => do
        return .contract j name us before (after ++ (← f u))
      | u => pure u
    return .source i units head single
  | n => .ok n

def privateContract (policy : PrivacyPolicy) (source : Node) : Outcome Node :=
  extendContracts (fun c => Accessors.functions c false policy.states) source

def hashText (text : String) : String :=
  "0x" ++ Digest.hex (Digest.Keccak.hash (Digest.bytesOf text))

def serviceVariables (serviceAddress privateCode policyText : String) : Outcome (List Node) := do
  let service := Service.name
  let code := hashText privateCode
  let policy := hashText policyText
  return [
    .comment {} (service ++ " Variable"),
    ← Source.piece s!"{service} constant {service}_inst = {service}({serviceAddress});",
    ← Source.piece s!"address tee_addr = {service}_inst.getTEEAddress();",
    ← Source.piece s!"uint constant teeCHash = {code};",
    ← Source.piece s!"uint constant teePHash = {policy};"]

/-- Is the part of a contract a function that the public contract does not keep? With `keepPublic`
only functions that deal with private states are dropped. -/
def isDropped (keepPublic : Bool) (related : List String) (n : Node) : Bool :=
  n.isFunctionOf .function &&
    (!keepPublic || match Program.nameText n with
      | .ok name => related.contains name
      | .error _ => false)

def publicContract (keepPublic : Bool) (related : List String) (policy : PrivacyPolicy)
    (privateCode policyText : String) (contract : Node) : Pass Node := do
  match contract with
  | .contract i name units before after =>
    let declared ← ofOutcome (serviceVariables (← get).settings.serviceAddress privateCode policyText)
    let units ← units.mapM fun u => if u.isStateVariable then Ciphertext.declaration u else pure u
    let units := units.filter fun u => !isDropped keepPublic related u
    let accessors ← ofOutcome (Accessors.functions (.contract i name units before after) true policy.states)
    return .contract i name units before (after ++ declared ++ accessors)
  | n => return n

def publicSource (keepPublic : Bool) (policy : PrivacyPolicy) (privateCode policyText : String) :
    Pass Node := do
  let related ← Marking.related
  match (← get).tree with
  | .source i units head single =>
    let units ← units.mapM (publicContract keepPublic related policy privateCode policyText)
    return .source i units (head ++ [.importFile {} ("./" ++ Service.name ++ ".sol") .omitted .omitted]) single
  | n => return n

def policyText (policy : PrivacyPolicy) : String :=
  Json.write Json.lined policy.toValue

def compile (text : String) (keepPublic : Bool) (solc : Solc.Answer) : Pass Unit := do
  write "contract.cloak" text
  load text
  let solidity ← ask fun p => p.solidity p.tree
  write "contract.sol" solidity
  Pipeline.checkSolidity solidity solc
  let policy := (← Pipeline.analyse).sorted
  let policyText := policyText policy
  step "Generate privacy policy" (write "policy.json" policyText)
  let privateCode ← step "Write private solidity code" do
    let n ← ofOutcome (do privateContract policy (← Source.unit text))
    let code ← ask fun p => p.solidity n
    write "private_contract.sol" code
    return code
  let source ← step "Transforming cloak contract" (publicSource keepPublic policy privateCode policyText)
  step "Write library contract files" (write (Service.name ++ ".sol") Service.contract)
  step "Write public solidity code" do
    write "public_contract.sol" (← ask fun p => p.solidity source)

end Confidential.Compilation
