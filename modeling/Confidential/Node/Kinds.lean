import Confidential.Node

/-!
Families of nodes, and the names by which reports speak of them. Mappings inside of mappings, and the
headers of functions.
-/

namespace Confidential

def Category.label : Category → String
  | .node => "AST"
  | .expression => "Expression"
  | .literal => "LiteralExpr"
  | .tupleOrLocation => "TupleOrLocationExpr"
  | .location => "LocationExpr"
  | .primary => "PrimaryExpression"
  | .statement => "Statement"
  | .simpleStatement => "SimpleStatement"
  | .typeName => "TypeName"
  | .definition => "NamespaceDefinition"

def Elementary.label : Elementary → String
  | .named _ => "ElementaryTypeName"
  | .bool _ => "BoolTypeName"
  | .boolLiteral _ => "BooleanLiteralType"
  | .number _ _ _ => "NumberTypeName"
  | .numberLiteral _ => "NumberLiteralType"
  | .int _ _ => "IntTypeName"
  | .uint _ _ => "UintTypeName"
  | .bytes _ _ => "BytesTypeName"
  | .string => "StringTypeName"

def UserKind.label : UserKind → String
  | .plain => "UserDefinedTypeName"
  | .enum => "EnumTypeName"
  | .enumValue => "EnumValueTypeName"
  | .struct => "StructTypeName"
  | .contract => "ContractTypeName"
  | .address => "AddressTypeName"
  | .addressPayable => "AddressPayableTypeName"

def DeclKind.label : DeclKind → String
  | .plain => "IdentifierDeclaration"
  | .variable => "VariableDeclaration"
  | .parameter => "Parameter"

def ListKind.label : ListKind → String
  | .plain => "StatementList"
  | .block _ => "Block"
  | .indented => "IndentBlock"

def Owner.label : Owner → String
  | .me => "MeExpr"
  | .all => "AllExpr"
  | .tee => "TeeExpr"

def Value.label : Value → String
  | .null => "NoneType"
  | .bool _ => "bool"
  | .int _ => "int"
  | .real _ => "float"
  | .text _ => "str"
  | .list _ => "list"
  | .record _ => "dict"

namespace Node

def label : Node → String
  | .omitted => "NoneType"
  | .plain v => v.label
  | .general _ c => c.label
  | .identifier .. => "Identifier"
  | .comment .. => "Comment"
  | .blankLine .. => "BlankLine"
  | .builtin .. => "BuiltinFunction"
  | .namedArgument .. => "NamedArgument"
  | .arguments .. => "CallArgumentList"
  | .callOptions .. => "FunctionCallOptions"
  | .call .. => "FunctionCallExpr"
  | .metaType .. => "MetaTypeExpr"
  | .create .. => "NewExpr"
  | .cast .. => "PrimitiveCastExpr"
  | .truth .. => "BooleanLiteralExpr"
  | .number .. => "NumberLiteralExpr"
  | .text .. => "StringLiteralExpr"
  | .arrayLiteral _ isKey _ => if isKey then "KeyLiteralExpr" else "ArrayLiteralExpr"
  | .tuple .. => "TupleExpr"
  | .inlineArray .. => "InlineArrayExpr"
  | .name .. => "IdentifierExpr"
  | .member .. => "MemberAccessExpr"
  | .index .. => "IndexExpr"
  | .range .. => "RangeIndexExpr"
  | .slice .. => "SliceExpr"
  | .owner _ who => who.label
  | .reveal .. => "ReclassifyExpr"
  | .branch .. => "IfStatement"
  | .whileLoop .. => "WhileStatement"
  | .doWhileLoop .. => "DoWhileStatement"
  | .forLoop .. => "ForStatement"
  | .breakLoop .. => "BreakStatement"
  | .continueLoop .. => "ContinueStatement"
  | .catchClause .. => "CatchClause"
  | .tryCall .. => "TryStatement"
  | .returnValue .. => "ReturnStatement"
  | .emit .. => "EmitStatement"
  | .revert .. => "RevertStatement"
  | .assembly .. => "AssemblyStatement"
  | .expressionStatement .. => "ExpressionStatement"
  | .require .. => "RequireStatement"
  | .assign _ toCircuit _ _ _ => if toCircuit then "CircuitInputStatement" else "AssignmentStatement"
  | .statements _ k _ => k.label
  | .variableStatement .. => "VariableDeclarationStatement"
  | .variablesStatement .. => "TupleVariableDeclarationStatement"
  | .elementary _ t => t.label
  | .userType _ k _ => k.label
  | .mapping .. => "Mapping"
  | .arrayType .. => "Array"
  | .tupleType .. => "TupleType"
  | .functionType .. => "FunctionTypeName"
  | .annotated .. => "AnnotatedTypeName"
  | .declaration _ k _ _ _ _ => k.label
  | .stateVariable .. => "StateVariableDeclaration"
  | .invocation .. => "ModifierInvocation"
  | .override .. => "OverrideSpecifier"
  | .function .. => "ConstructorOrFunctionDefinition"
  | .modifier .. => "ModifierDefinition"
  | .enumValue .. => "EnumValue"
  | .enum .. => "EnumDefinition"
  | .valueType .. => "UserDefinedValueTypeDefinition"
  | .eventParameter .. => "EventParameter"
  | .event .. => "EventDefinition"
  | .errorParameter .. => "ErrorParameter"
  | .error .. => "ErrorDefinition"
  | .using .. => "UsingDirective"
  | .struct .. => "StructDefinition"
  | .contract .. => "ContractDefinition"
  | .pragma .. => "PragmaDirective"
  | .importFile .. => "ImportDirective"
  | .inheritance .. => "InheritanceSpecifier"
  | .interface .. => "InterfaceDefinition"
  | .library .. => "LibraryDefinition"
  | .source .. => "SourceUnit"

/-- Nodes that are given no place and no tables until a pass gives them some. -/
def isBare : Node → Bool
  | .callOptions .. | .metaType .. | .create .. | .range .. | .variablesStatement .. | .using ..
  | .pragma .. | .importFile .. | .inheritance .. | .interface .. | .library .. => true
  | _ => false

/-- Expressions that stand for a place where a value is kept. -/
def isLocation : Node → Bool
  | .name .. | .member .. | .index .. | .range .. | .slice .. | .elementary .. => true
  | .general _ .location | .general _ .primary => true
  | _ => false

def isTupleOrLocation : Node → Bool
  | .tuple .. => true
  | .general _ .tupleOrLocation => true
  | n => n.isLocation

def isLiteral : Node → Bool
  | .truth .. | .number .. | .text .. | .arrayLiteral .. => true
  | .general _ .literal => true
  | _ => false

def isExpression : Node → Bool
  | .builtin .. | .callOptions .. | .call .. | .metaType .. | .create .. | .cast .. | .inlineArray ..
  | .owner .. | .reveal .. => true
  | .general _ .expression => true
  | n => n.isTupleOrLocation || n.isLiteral

def isStatement : Node → Bool
  | .branch .. | .whileLoop .. | .doWhileLoop .. | .forLoop .. | .breakLoop .. | .continueLoop ..
  | .tryCall .. | .returnValue .. | .emit .. | .revert .. | .assembly .. | .expressionStatement ..
  | .require .. | .assign .. | .statements .. | .variableStatement .. | .variablesStatement .. => true
  | .general _ .statement | .general _ .simpleStatement => true
  | _ => false

def isBlock : Node → Bool
  | .statements _ (.block _) _ => true
  | _ => false

def isTypeName : Node → Bool
  | .elementary .. | .userType .. | .mapping .. | .arrayType .. | .tupleType .. | .functionType .. => true
  | .general _ .typeName => true
  | _ => false

def isPrimitive : Node → Bool
  | .elementary .. | .userType _ .enum _ | .userType _ .enumValue _ | .userType _ .address _
  | .userType _ .addressPayable _ => true
  | _ => false

def isNamespace : Node → Bool
  | .function .. | .modifier .. | .enum .. | .valueType .. | .event .. | .error .. | .struct ..
  | .contract .. => true
  | _ => false

def isContract : Node → Bool
  | .contract .. => true
  | _ => false

def isFunction : Node → Bool
  | .function .. => true
  | _ => false

def isSource : Node → Bool
  | .source .. => true
  | _ => false

def identifierText? : Node → Option String
  | .identifier _ t => some t
  | _ => none

def ownName? : Node → Option Node
  | .name _ a | .enumValue _ a | .enum _ a _ | .valueType _ a _ | .event _ a _ _ | .error _ a _
  | .struct _ a _ | .contract _ a _ _ _ | .modifier _ a _ _ _ _ | .function _ a _ _ _ _ _
  | .declaration _ _ _ _ a _ | .stateVariable _ _ _ a _ _ | .catchClause _ a _ _ => some a
  | _ => none

def mappingDepth : Node → Nat
  | .mapping _ _ _ (.annotated _ value _ _) => value.mappingDepth + 1
  | _ => 0

def split : Node → Nat × List Node × Node
  | .mapping _ key _ (.annotated _ value _ _) =>
    let (depth,keys,last) := value.split
    (depth + 1,key :: keys,last)
  | n => (0,[],n)

def hasMark (word : String) : Node → Bool
  | .function _ _ _ marks _ _ _ => marks.any fun m => match m with
    | .plain (.text t) => t == word
    | _ => false
  | _ => false

/-- Does a function change the state, as its header tells? Only functions can be asked. -/
def hasSideEffects (f : Node) : Outcome Bool :=
  if f.isFunction then .ok !(f.hasMark "pure" || f.hasMark "view") else .error .absent

def canBeExternal (f : Node) : Bool :=
  !(f.hasMark "private" || f.hasMark "internal")

def annotatedType : Node → Node
  | .declaration _ _ _ type _ _ | .stateVariable _ type _ _ _ _ => type
  | _ => .omitted

def parameterTypes : Node → Node
  | .function _ _ parameters _ _ _ _ => .tupleType {} ((parameters.getD []).map annotatedType)
  | _ => .omitted

def resultTypes : Node → Node
  | .function _ _ _ _ results _ _ => .tupleType {} (results.map annotatedType)
  | _ => .omitted

def resultVariables : Node → List Node
  | .function _ _ _ _ results _ _ => results.zipIdx.map fun (r,k) =>
    let storage := match r with
      | .declaration _ _ _ _ _ s => s
      | _ => none
    .declaration {} .variable [] r.annotatedType (.identifier {} s!"teeRet_{k}") storage
  | _ => []

end Node
end Confidential
