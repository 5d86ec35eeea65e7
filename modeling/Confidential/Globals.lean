import Confidential.Node.Construction
import Confidential.Program.Query

/-!
What every program can use without a declaration.
-/

namespace Confidential.Globals

open Program (publicType)

def identifier (name : String) : Node :=
  .identifier {} name

def uint : Node :=
  publicType Node.uintType

def bool : Node :=
  publicType Node.boolType

def address : Node :=
  publicType Node.addressType

def payable : Node :=
  publicType Node.addressPayableType

def bytes (name : String) : Node :=
  publicType (.elementary {} (.named name))

def parameter (type : Node) (name : String) : Node :=
  .declaration {} .parameter [] type (identifier name) none

def field (type : Node) (name : String) : Node :=
  .declaration {} .variable [] type (identifier name) none

def block (body : List Node) : Node :=
  .statements {} (.block false) body

def function (name : String) (parameters : List Node) (marks : List String) (results : List Node)
    (body : List Node) : Node :=
  .function {} (identifier name) (some parameters) (marks.map fun m => .plain (.text m)) results
    (block body) .function

def use (name : String) : Node :=
  .name {} (identifier name)

def requireOwner : Node :=
  .require {} (.call {} (.builtin {} .equal)
    (.arguments {} [.member {} (use "msg") (identifier "sender"),use "owner"] false) false) .omitted
    "require(msg.sender == owner);"

def setter (name state parameterName value : String) : Node :=
  function name [parameter uint parameterName] ["external"] []
    [requireOwner,.assign {} false (use state) (use value) ""]

def struct (name : String) (members : List Node) : Node :=
  .struct {} (identifier name) members

/-- Functions and structures; the mark tells whether the parts of the definition know where they
stand. -/
def definitions : List (Node × Bool) :=
  [(setter "setCodeHash" "teeCHash" "newCodeHash" "setCodeHash",true),
   (setter "setPolicy" "teePHash" "newPolicy" "newPolicy",true),
   (function "address" [parameter uint "naddr"] ["internal"] [parameter address "addr"] [],false),
   (function "uint256" [parameter address "nuint"] ["internal"] [parameter uint "uint"] [],false),
   (struct "<address>" [field uint "balance"],true),
   (struct "<address_payable>" [field uint "balance",
      function "send" [parameter uint ""] ["public"] [parameter bool ""] [],
      function "transfer" [parameter uint ""] ["public"] [] []],true),
   (struct "<msg>" [field payable "sender",field uint "value"],true),
   (struct "<block>" [field payable "coinbase",field uint "difficulty",
      field uint "gaslimit",field uint "number",field uint "timestamp"],true),
   (struct "<tx>" [field uint "gasprice",field payable "origin"],true),
   (struct "<abi>" [function "encode"
      [parameter (publicType (.arrayType {} uint .omitted)) "dummy"] ["public"]
      [parameter (bytes "bytes32") "dummy"] []],true),
   (function "keccak256" [parameter (bytes "bytes") "dummy"] ["public"]
      [parameter (bytes "bytes32") "dummy"] [],false),
   (function "revert" [] ["public"] [] [],false),
   (function "require" [parameter bool "condition"] ["public"] [] [],false)]

def globalVariables : List (String × Option String) :=
  [("msg",some "<msg>"),("block",some "<block>"),("tx",some "<tx>"),("now",none),
   ("abi",some "<abi>")]

def linkName (n : Node) : Pass Unit :=
  match n.ownName? with
  | some name => modify fun p =>
    { p with links := { p.links with parents := p.links.parents.insert name.id n.id } }
  | none => return ()

def entry (n : Node) : List (String × Nat) :=
  match n.ownName? with
  | some (.identifier i name) => [(name,i.id)]
  | _ => []

def installDefinition (n : Node) (linked : Bool) : Pass Node := do
  let n ← Pass.register n
  if linked then Pass.linkParents n else linkName n
  modify fun p => { p with
    globalDefinitions := p.globalDefinitions ++ [n.id]
    globalNames := p.globalNames ++ entry n }
  return n

def markTransfers : Node → Pass Unit
  | .struct _ _ (_ :: functions) => functions.forM fun f =>
    modify fun p => { p with functionFacts := p.functionFacts.insert f.id { canBePrivate := false } }
  | _ => return ()

def installVariable (structs : List Node) (name : String) (typeName : Option String) : Pass Unit := do
  let type := typeName.bind fun t => structs.find? fun s => (entry s).any (·.1 == t)
  let n ← Pass.register (.stateVariable {} (match type with
    | some (.struct _ label _) => .annotated {} (.userType {} .struct [label]) true (.owner {} .all)
    | _ => uint) [] (identifier name) .omitted .omitted)
  linkName n
  match n, type with
  | .stateVariable _ (.annotated _ t _ _) _ _ _ _, some s =>
    modify fun p => { p with links := { p.links with targets := p.links.targets.insert t.id s.id } }
  | _, _ => pure ()
  modify fun p => { p with globalNames := p.globalNames ++ entry n }

def install : Pass Unit := do
  let nodes ← definitions.mapM fun (n,linked) => installDefinition n linked
  (nodes.filter fun n => (entry n).any (·.1 == "<address_payable>")).forM markTransfers
  globalVariables.forM fun (name,type) => installVariable nodes name type
  let length ← Pass.register (field uint "length")
  modify fun p => { p with arrayLength := length.id }

def base : Program :=
  (install.run {}).2

end Globals
end Confidential
