import Confidential.Description.Fields
import Confidential.Program.Building
import Confidential.Value.Shown

/-!
Nodes from descriptions: a kind of node and the items for its fields.
-/

namespace Confidential

namespace Description

variable (kind : String)

abbrev Signature : Type :=
  List (String × Option Item)

/-- Fields that have to be given, and behind them fields with items of their own. -/
def needed (names : List String) (others : List (String × Item) := []) : Option Signature :=
  some (names.map (·,none) ++ others.map fun (name,item) => (name,some item))

def signature? : Option Signature :=
  match kind with
  | "Comment" => needed [] [("text",.text "")]
  | "BlankLine" | "MeExpr" | "AllExpr" | "TeeExpr" | "BreakStatement" | "ContinueStatement" | "StringTypeName"
  | "AddressTypeName" | "AddressPayableTypeName" | "AST" | "Expression" | "LiteralExpr"
  | "TupleOrLocationExpr" | "LocationExpr" | "PrimaryExpression" | "Statement" | "SimpleStatement"
  | "TypeName" => some []
  | "Identifier" | "ElementaryTypeName" | "NumberLiteralType" | "BooleanLiteralType" => needed ["name"]
  | "BoolTypeName" => needed [] [("name",.text "bool")]
  | "IntTypeName" => needed [] [("name",.text "int")]
  | "UintTypeName" => needed [] [("name",.text "uint")]
  | "BytesTypeName" => needed [] [("name",.text "bytes")]
  | "NumberTypeName" => needed ["name","prefix","signed"] [("bitwidth",.null)]
  | "BuiltinFunction" => needed ["op"]
  | "NamedArgument" => needed ["key","value"]
  | "CallArgumentList" => needed ["args"] [("named_arguments",.bool false)]
  | "FunctionCallOptions" => needed ["expr","args"]
  | "FunctionCallExpr" => needed ["func","args"] [("functionCallOptions",.bool false)]
  | "MetaTypeExpr" => needed ["typeName"]
  | "NewExpr" => needed ["target_type"]
  | "PrimitiveCastExpr" => needed ["elem_type","expr"] [("is_implicit",.bool false)]
  | "BooleanLiteralExpr" | "StringLiteralExpr" => needed ["value"]
  | "NumberLiteralExpr" => needed ["value"] [("was_hex",.bool false),("source_text",.null),("unit",.null)]
  | "ArrayLiteralExpr" | "KeyLiteralExpr" => needed ["values"]
  | "TupleExpr" => needed ["elements"]
  | "InlineArrayExpr" => needed ["exprs"]
  | "IdentifierExpr" => needed ["idf"] [("annotated_type",.null)]
  | "MemberAccessExpr" => needed ["expr","member"]
  | "IndexExpr" => needed ["arr","key"]
  | "RangeIndexExpr" => needed ["arr","start","end"]
  | "SliceExpr" => needed ["arr","base","start_offset","size"]
  | "ReclassifyExpr" => needed ["expr","privacy"]
  | "IfStatement" => needed ["condition","then_branch","else_branch"]
  | "WhileStatement" => needed ["condition","body"]
  | "DoWhileStatement" => needed ["body","condition"]
  | "ForStatement" => needed ["init","condition","update","body"]
  | "CatchClause" => needed ["idf","args","body"]
  | "TryStatement" => needed ["expr","returnParameters","body","catchClauses"]
  | "ReturnStatement" | "ExpressionStatement" => needed ["expr"]
  | "EmitStatement" => needed ["expr"] [("args",.null)]
  | "RevertStatement" => needed ["expr","args"]
  | "AssemblyStatement" => needed ["text"]
  | "RequireStatement" => needed ["condition"] [("unmodified_code",.null),("comment",.null)]
  | "AssignmentStatement" | "CircuitInputStatement" => needed ["lhs","rhs"] [("op",.null)]
  | "StatementList" => needed ["statements"] [("excluded_from_simulation",.bool false)]
  | "Block" => needed ["statements"] [("was_single_statement",.bool false)]
  | "IndentBlock" => needed ["statements"]
  | "VariableDeclarationStatement" => needed ["variable_declaration"] [("expr",.null)]
  | "TupleVariableDeclarationStatement" => needed ["vs","expr"]
  | "UserDefinedTypeName" | "EnumTypeName" | "EnumValueTypeName" | "StructTypeName" | "ContractTypeName" =>
    needed ["names"] [("target",.null)]
  | "Mapping" => needed ["key_type","key_label","value_type"]
  | "Array" => needed ["value_type"] [("expr",.null)]
  | "TupleType" => needed ["types"]
  | "FunctionTypeName" => needed ["parameters","modifiers","return_parameters"]
  | "AnnotatedTypeName" => needed ["type_name"] [("privacy_annotation",.null)]
  | "IdentifierDeclaration" | "VariableDeclaration" | "Parameter" =>
    needed ["keywords","annotated_type","idf"] [("storage_location",.null)]
  | "StateVariableDeclaration" => needed ["annotated_type","keywords","idf","expr"] [("overrideSpecifier",.null)]
  | "ModifierInvocation" | "InheritanceSpecifier" => needed ["path","args"]
  | "OverrideSpecifier" => needed ["paths"]
  | "ConstructorOrFunctionDefinition" =>
    needed ["idf","parameters","modifiers","return_parameters"] [("body",.null),("kind",.text "function")]
  | "ModifierDefinition" => needed ["idf","parameters"] [("virtual",.bool false),("overrideSpecifiers",.null),("body",.null)]
  | "EnumValue" | "NamespaceDefinition" => needed ["idf"]
  | "EnumDefinition" => needed ["idf","values"]
  | "UserDefinedValueTypeDefinition" => needed ["idf","underlying_type"]
  | "EventParameter" => needed ["annotated_type"] [("indexed",.null),("name",.null)]
  | "EventDefinition" => needed ["idf","parameters"] [("anonymous",.null)]
  | "ErrorParameter" => needed ["annotated_type"] [("name",.null)]
  | "ErrorDefinition" => needed ["idf","parameters"]
  | "UsingDirective" => needed ["path"] [("type_name",.null)]
  | "StructDefinition" => needed ["idf","members"]
  | "ContractDefinition" => needed ["idf","units"]
  | "PragmaDirective" => needed ["name","version"]
  | "ImportDirective" => needed ["path"] [("unitAlias",.null),("aliases",.null)]
  | "InterfaceDefinition" => needed ["name","inheritanceSpecifiers","body_elems"]
  | "LibraryDefinition" => needed ["name","body_elems"]
  | "SourceUnit" => needed [] [("units",.null),("sba",.null)]
  | _ => none

/-- Gives every field its item, first by position and then by name. No field gets two, and no item is
left over. -/
def bind (signature : Signature) (items : List Item) (named : List (String × Item)) :
    Outcome (List (String × Item)) := do
  if signature.length < items.length then .error .misused
  let placed := (signature.take items.length).map (·.1)
  if named.any fun (name,_) => placed.contains name || !signature.any (·.1 == name) then
    .error .misused
  let later ← (signature.drop items.length).mapM fun (name,default) =>
    match named.lookup name, default with
    | some item, _ => .ok (name,item)
    | none, some item => .ok (name,item)
    | none, none => .error .misused
  return placed.zip items ++ later

abbrev Lookup : Type :=
  String → Item

def elementary (get : Lookup) : Outcome Elementary := do
  let label := get "name"
  match kind with
  | "BoolTypeName" => return .bool (← label.toText)
  | "IntTypeName" => Elementary.ofIntName (← label.toText)
  | "UintTypeName" => Elementary.ofUintName (← label.toText)
  | "BytesTypeName" => Elementary.ofBytesName (← label.toText)
  | "StringTypeName" => return .string
  | "NumberTypeName" =>
    let bits ← if (get "bitwidth").isNull then pure none else some <$> (get "bitwidth").toInt
    Elementary.ofNumberName (← label.toText) (← (get "prefix").toText) (get "signed").toFlag bits
  | "NumberLiteralType" =>
    match label with
    | .node (.plain (.text t)) =>
      match Text.integer? t with
      | some v => Elementary.ofLiteral v
      | none => .error (.badValue none)
    | label => Elementary.ofLiteral (← label.toInt)
  | "BooleanLiteralType" =>
    match label with
    | .node (.plain (.text t)) => return .boolLiteral t.toLower
    | label => return .boolLiteral (if label.toFlag then "true" else "false")
  | _ => return .named (← label.toText)

def category? : Option Category :=
  [Category.node,.expression,.literal,.tupleOrLocation,.location,.primary,.statement,.simpleStatement,
   .typeName,.definition].find? fun c => c.label == kind

def userKind? : Option UserKind :=
  [UserKind.plain,.enum,.enumValue,.struct,.contract].find? fun k => k.label == kind

def declKind? : Option DeclKind :=
  [DeclKind.plain,.variable,.parameter].find? fun k => k.label == kind

def owner? : Option Owner :=
  [Owner.me,.all,.tee].find? fun o => o.label == kind

/-- A list of words and nodes; it may be left out. -/
def toOptionalNodes (i : Item) : Outcome (Option (List Node)) :=
  if i.isNull then .ok none else some <$> i.toNodes

def toListed (i : Item) : Outcome (List Node) :=
  if i.isNull then .ok [.plain (.text "None")] else i.toNodes

def toPath (i : Item) : Outcome (List String) :=
  if i.isNull then .ok ["None"] else i.toTexts

def toBody : Item → Node
  | .list items => .statements {} .plain (items.map Item.toNode)
  | i => i.toNode

def toOptionalBody (i : Item) : Node :=
  if i.toFlag then toBody i else .omitted

/-- The names that an import brings along; none count as missing, and many are shown as they are. -/
def toAliases (i : Item) : Outcome Node := do
  if !i.toFlag then return .omitted
  match i with
  | .node (.plain (.record [])) => return .omitted
  | .node (.plain v) => return .plain (.text v.plainText)
  | .node n => return n
  | i => return .plain (.text (Value.ofTexts (← i.toTexts)).shown)

def typeName (get : Lookup) : Outcome Node := do
  let node (name : String) : Node := (get name).toNode
  match kind with
  | "AddressTypeName" => return Node.addressType
  | "AddressPayableTypeName" => return Node.addressPayableType
  | "Mapping" => return .mapping {} (node "key_type") (node "key_label") (node "value_type")
  | "Array" => Node.arrayOf (node "value_type") (node "expr")
  | "TupleType" => return .tupleType {} (← toListed (get "types"))
  | "FunctionTypeName" =>
    return .functionType {} (← toOptionalNodes (get "parameters")) (← (get "modifiers").toNodes)
      (← toOptionalNodes (get "return_parameters"))
  | "AnnotatedTypeName" => return Node.ownedBy (node "type_name") (node "privacy_annotation")
  | _ =>
    match userKind? kind with
    | some k => return .userType {} k (← toListed (get "names"))
    | none => return .elementary {} (← elementary kind get)

def expression? (get : Lookup) : Option (Outcome Node) :=
  let node (name : String) : Node := (get name).toNode
  match kind with
  | "BuiltinFunction" => some do return .builtin {} (← Operator.named (← (get "op").toText))
  | "NamedArgument" => some do return .namedArgument {} (← (get "key").toText) (node "value")
  | "CallArgumentList" => some do
    return .arguments {} (← (get "args").toNodes) (get "named_arguments").toFlag
  | "FunctionCallOptions" => some do return .callOptions {} (node "expr") (← (get "args").toNodes)
  | "FunctionCallExpr" => some do
    let args ← match get "args" with
      | .list items => pure (.arguments {} (items.map Item.toNode) false)
      | i => pure i.toNode
    return .call {} (node "func") args (get "functionCallOptions").toFlag
  | "MetaTypeExpr" => some (.ok (.metaType {} (node "typeName")))
  | "NewExpr" => some (.ok (.create {} (node "target_type")))
  | "PrimitiveCastExpr" => some (.ok (.cast {} (node "elem_type") (node "expr") (get "is_implicit").toFlag))
  | "BooleanLiteralExpr" => some (.ok (.truth {} (get "value").toFlag))
  | "NumberLiteralExpr" => some do
    Node.ofNumber (← (get "value").toInt) (get "was_hex").toFlag (← (get "source_text").toText?)
      (← (get "unit").toText?)
  | "StringLiteralExpr" => some do return .text {} (← (get "value").toText)
  | "ArrayLiteralExpr" => some do return .arrayLiteral {} false (← toListed (get "values"))
  | "KeyLiteralExpr" => some do return .arrayLiteral {} true (← toListed (get "values"))
  | "TupleExpr" => some do return .tuple {} (← toListed (get "elements"))
  | "InlineArrayExpr" => some do return .inlineArray {} (← toListed (get "exprs"))
  | "IdentifierExpr" => some (.ok (.name {} (node "idf").asIdentifier))
  | "MemberAccessExpr" => some (Node.memberOf (node "expr") (node "member"))
  | "IndexExpr" => some (Node.elementOf (node "arr") (node "key"))
  | "RangeIndexExpr" => some (.ok (.range {} (node "arr") (node "start") (node "end")))
  | "SliceExpr" => some do
    return .slice {} (node "arr") (node "base") (← (get "start_offset").toInt) (← (get "size").toInt)
  | "ReclassifyExpr" => some (.ok (.reveal {} (node "expr") (node "privacy")))
  | _ => (owner? kind).map fun who => .ok (.owner {} who)

def statement? (style : Style) (kind : String) (get : Lookup) : Option (Outcome Node) :=
  let node (name : String) : Node := (get name).toNode
  let body (name : String) : Node := toBody (get name)
  match kind with
  | "IfStatement" =>
    some (.ok (.branch {} (node "condition") (body "then_branch") (toOptionalBody (get "else_branch"))))
  | "WhileStatement" => some (.ok (.whileLoop {} (node "condition") (body "body")))
  | "DoWhileStatement" => some (.ok (.doWhileLoop {} (body "body") (node "condition")))
  | "ForStatement" =>
    some (.ok (.forLoop {} (body "init") (node "condition") (body "update") (body "body")))
  | "BreakStatement" => some (.ok (.breakLoop {}))
  | "ContinueStatement" => some (.ok (.continueLoop {}))
  | "CatchClause" => some do return .catchClause {} (node "idf") (← (get "args").toNodes) (node "body")
  | "TryStatement" => some do
    return .tryCall {} (node "expr") (← (get "returnParameters").toNodes) (node "body")
      (← toListed (get "catchClauses"))
  | "ReturnStatement" => some (.ok (.returnValue {} (node "expr")))
  | "ExpressionStatement" => some (.ok (.expressionStatement {} (node "expr")))
  | "EmitStatement" => some (.ok (.emit {} (node "expr") (node "args")))
  | "RevertStatement" => some (.ok (.revert {} (node "expr") (node "args")))
  | "AssemblyStatement" => some do return .assembly {} (← (get "text").toText)
  | "RequireStatement" => some do
    Node.requirement style (node "condition") (node "comment") (← (get "unmodified_code").toText?)
  | "AssignmentStatement" => some do
    return .assign {} false (node "lhs") (node "rhs") ((← (get "op").toText?).getD "")
  | "CircuitInputStatement" => some do
    return .assign {} true (node "lhs") (node "rhs") ((← (get "op").toText?).getD "")
  | "StatementList" => some do return .statements {} .plain (← toListed (get "statements"))
  | "Block" => some do
    return .statements {} (.block (get "was_single_statement").toFlag) (← toListed (get "statements"))
  | "IndentBlock" => some do return .statements {} .indented (← toListed (get "statements"))
  | "VariableDeclarationStatement" =>
    some (.ok (.variableStatement {} (node "variable_declaration") (node "expr")))
  | "TupleVariableDeclarationStatement" => some do
    return .variablesStatement {} (← (get "vs").toNodes) (node "expr")
  | _ => none

def declaration? (get : Lookup) : Option (Outcome Node) :=
  let node (name : String) : Node := (get name).toNode
  match kind with
  | "StateVariableDeclaration" => some do
    return .stateVariable {} (node "annotated_type") (← (get "keywords").toTexts) (node "idf") (node "expr")
      (node "overrideSpecifier")
  | "ModifierInvocation" => some do return .invocation {} (← (get "path").toTexts) (node "args")
  | "InheritanceSpecifier" => some do return .inheritance {} (← toPath (get "path")) (node "args")
  | "OverrideSpecifier" => some do
    match get "paths" with
    | .list items => return .override {} (← items.mapM Item.toTexts)
    | _ => return .override {} []
  | "ConstructorOrFunctionDefinition" => some do
    Node.functionOf (node "idf") (← toOptionalNodes (get "parameters")) (← (get "modifiers").toNodes)
      (← (get "return_parameters").toNodes) (toOptionalBody (get "body")) (← (get "kind").toText)
  | "ModifierDefinition" => some do
    return .modifier {} (node "idf") (← toListed (get "parameters")) (get "virtual").toFlag
      (← toListed (get "overrideSpecifiers")) (node "body")
  | "EnumValue" => some (.ok (.enumValue {} (node "idf")))
  | "EnumDefinition" => some do return .enum {} (node "idf") (← toListed (get "values"))
  | "UserDefinedValueTypeDefinition" => some (.ok (.valueType {} (node "idf") (node "underlying_type")))
  | "EventParameter" => some do
    return .eventParameter {} (node "annotated_type") (← (get "indexed").toText?) (node "name")
  | "EventDefinition" => some do
    return .event {} (node "idf") (← (get "parameters").toNodes) (← (get "anonymous").toText?)
  | "ErrorParameter" => some (.ok (.errorParameter {} (node "annotated_type") (node "name")))
  | "ErrorDefinition" => some do return .error {} (node "idf") (← (get "parameters").toNodes)
  | "UsingDirective" => some do return .using {} (← toPath (get "path")) (node "type_name")
  | "StructDefinition" => some do return .struct {} (node "idf") (← toListed (get "members"))
  | "ContractDefinition" => some do return .contract {} (node "idf") (← toListed (get "units")) [] []
  | "PragmaDirective" => some do return .pragma {} (← (get "name").toText) (← (get "version").toText)
  | "ImportDirective" => some do
    return .importFile {} (← (get "path").toText) (node "unitAlias") (← toAliases (get "aliases"))
  | "InterfaceDefinition" => some do
    return .interface {} (node "name") (← (get "inheritanceSpecifiers").toNodes) (← (get "body_elems").toNodes)
  | "LibraryDefinition" => some do return .library {} (node "name") (← (get "body_elems").toNodes)
  | "SourceUnit" => some do return .source {} (← (get "units").toNodes) [] (node "sba")
  | _ => (declKind? kind).map fun k => do
    return .declaration {} k (← (get "keywords").toTexts) (node "annotated_type") (node "idf")
      (← (get "storage_location").toText?)

def assemble (style : Style) (kind : String) (get : Lookup) : Outcome Node := do
  if kind == "Comment" then return .comment {} (← (get "text").toText)
  if kind == "BlankLine" then return .blankLine {}
  if kind == "Identifier" then return .identifier {} (← (get "name").toText)
  match category? kind with
  | some c => return .general {} c
  | none =>
    match expression? kind get with
    | some n => n
    | none =>
      match statement? style kind get with
      | some n => n
      | none => (declaration? kind get).getD (typeName kind get)

def withField (style : Style) (n : Node) (name : String) (item : Item) : Outcome Node := do
  match signature? n.label with
  | none => return n
  | some signature =>
    if !signature.any (·.1 == name) then return n
    let known := fields n
    let m ← assemble style n.label fun k => if k == name then item else (known.lookup k).getD .null
    return m.withInfo n.info

end Description

/-- Puts a node together and makes it known. A name may come with its type, and a named type with what
it refers to. -/
def Pass.make (kind : String) (items : List Item) (named : List (String × Item)) : Pass Node := do
  match Description.signature? kind with
  | none => throw .absent
  | some signature =>
    let bound ← ofOutcome (Description.bind signature items named)
    let get := fun (name : String) => (bound.lookup name).getD .null
    let style := (← get').style false
    let n ← register (← ofOutcome (Description.assemble style kind get))
    if n matches .name .. then
      if !(get "annotated_type").isNull then
        modify fun p => { p with types := p.types.insert n.id (get "annotated_type").toNode }
    if n matches .userType .. then
      if !(get "target").isNull then setTarget n (get "target").toNode.id
    return n
where
  get' : Pass Program := get
end Confidential
