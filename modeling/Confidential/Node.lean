import Confidential.Operator
import Confidential.Owner
import Confidential.Value

/-!
The abstract syntax. One type covers expressions, statements, types and declarations, because the
analyses walk through all of them in the same way. Every piece carries a number of its own, by
which the tables of a program refer to it, and the place where it was found.
-/

namespace Confidential

/-- Number and place of a node. Nodes that no source text shows have the place `-1;-1`. -/
structure Info where
  id : Nat := 0
  line : Int := -1
  column : Int := -1
deriving DecidableEq, Inhabited

inductive Category where
  | node
  | expression
  | literal
  | tupleOrLocation
  | location
  | primary
  | statement
  | simpleStatement
  | typeName
  | definition
deriving DecidableEq

/-- Elementary types. A literal has a type of its own, which knows the value. -/
inductive Elementary where
  | named (name : String)
  | bool (name : String)
  | boolLiteral (name : String)
  | number (name : String) (signed : Bool) (bits : Int)
  | numberLiteral (value : Int)
  | int (name : String) (bits : Int)
  | uint (name : String) (bits : Int)
  | bytes (name : String) (length : Option Int)
  | string
deriving DecidableEq

inductive UserKind where
  | plain
  | enum
  | enumValue
  | struct
  | contract
  | address
  | addressPayable
deriving DecidableEq

inductive DeclKind where
  | plain
  | variable
  | parameter
deriving DecidableEq

inductive ListKind where
  | plain
  /-- A block in braces; a single statement may have been written without them. -/
  | block (wasSingle : Bool)
  | indented
deriving DecidableEq, Inhabited

inductive FunctionKind where
  | function
  | constructor
  | fallback
  | receive
  | other (word : String)
deriving DecidableEq

def FunctionKind.word : FunctionKind → String
  | .function => "function"
  | .constructor => "constructor"
  | .fallback => "fallback"
  | .receive => "receive"
  | .other w => w

inductive Node where
  /-- A place that is left empty. -/
  | omitted
  /-- Plain data in the place of a node, such as a keyword. -/
  | plain (value : Value)
  | general (info : Info) (category : Category)
  | identifier (info : Info) (name : String)
  | comment (info : Info) (text : String)
  | blankLine (info : Info)
  -- Expressions
  | builtin (info : Info) (op : Operator)
  | namedArgument (info : Info) (key : String) (value : Node)
  | arguments (info : Info) (values : List Node) (named : Bool)
  | callOptions (info : Info) (callee : Node) (values : List Node)
  /-- A call; with `options` the arguments are call options and stand without brackets. -/
  | call (info : Info) (callee args : Node) (options : Bool)
  | metaType (info : Info) (type : Node)
  | create (info : Info) (type : Node)
  | cast (info : Info) (type value : Node) (implicit : Bool)
  | truth (info : Info) (value : Bool)
  | number (info : Info) (value : Int) (hexadecimal : Bool) (source unit : Option String)
  | text (info : Info) (value : String)
  | arrayLiteral (info : Info) (isKey : Bool) (values : List Node)
  | tuple (info : Info) (elements : List Node)
  | inlineArray (info : Info) (elements : List Node)
  | name (info : Info) (identifier : Node)
  | member (info : Info) (base member : Node)
  | index (info : Info) (base key : Node)
  | range (info : Info) (base first last : Node)
  | slice (info : Info) (base offset : Node) (start size : Int)
  | owner (info : Info) (who : Owner)
  | reveal (info : Info) (value owner : Node)
  -- Statements
  | branch (info : Info) (condition yes no : Node)
  | whileLoop (info : Info) (condition body : Node)
  | doWhileLoop (info : Info) (body condition : Node)
  | forLoop (info : Info) (start condition update body : Node)
  | breakLoop (info : Info)
  | continueLoop (info : Info)
  | catchClause (info : Info) (name : Node) (parameters : List Node) (body : Node)
  | tryCall (info : Info) (call : Node) (results : List Node) (body : Node) (clauses : List Node)
  | returnValue (info : Info) (value : Node)
  | emit (info : Info) (event args : Node)
  | revert (info : Info) (error args : Node)
  | assembly (info : Info) (text : String)
  | expressionStatement (info : Info) (value : Node)
  | require (info : Info) (condition comment : Node) (written : String)
  /-- An assignment; `op` is the sign in front of `=`, or a step with the side of its sign. -/
  | assign (info : Info) (toCircuit : Bool) (left right : Node) (op : String)
  | statements (info : Info) (kind : ListKind) (body : List Node)
  | variableStatement (info : Info) (declaration value : Node)
  | variablesStatement (info : Info) (declarations : List Node) (value : Node)
  -- Types
  | elementary (info : Info) (type : Elementary)
  | userType (info : Info) (kind : UserKind) (path : List Node)
  | mapping (info : Info) (key label value : Node)
  | arrayType (info : Info) (value size : Node)
  | tupleType (info : Info) (types : List Node)
  | functionType (info : Info) (parameters : Option (List Node)) (marks : List Node)
      (results : Option (List Node))
  /-- A type with the owner of its values; `written` tells whether the owner stands in the source. -/
  | annotated (info : Info) (type : Node) (written : Bool) (owner : Node)
  -- Declarations
  | declaration (info : Info) (kind : DeclKind) (keywords : List String) (type name : Node)
      (storage : Option String)
  | stateVariable (info : Info) (type : Node) (keywords : List String) (name value override : Node)
  | invocation (info : Info) (path : List String) (args : Node)
  | override (info : Info) (paths : List (List String))
  | function (info : Info) (name : Node) (parameters : Option (List Node)) (marks : List Node)
      (results : List Node) (body : Node) (kind : FunctionKind)
  | modifier (info : Info) (name : Node) (parameters : List Node) (virtual : Bool)
      (overrides : List Node) (body : Node)
  | enumValue (info : Info) (name : Node)
  | enum (info : Info) (name : Node) (values : List Node)
  | valueType (info : Info) (name type : Node)
  | eventParameter (info : Info) (type : Node) (indexed : Option String) (name : Node)
  | event (info : Info) (name : Node) (parameters : List Node) (anonymous : Option String)
  | errorParameter (info : Info) (type name : Node)
  | error (info : Info) (name : Node) (parameters : List Node)
  | using (info : Info) (path : List String) (type : Node)
  | struct (info : Info) (name : Node) (members : List Node)
  /-- A contract; `head` and `tail` are parts added by a transformation. -/
  | contract (info : Info) (name : Node) (units head tail : List Node)
  | pragma (info : Info) (name version : String)
  | importFile (info : Info) (path : String) (unitName aliases : Node)
  | inheritance (info : Info) (path : List String) (args : Node)
  | interface (info : Info) (name : Node) (bases units : List Node)
  | library (info : Info) (name : Node) (units : List Node)
  /-- A source text; `single` is a piece of syntax that stands on its own. -/
  | source (info : Info) (units head : List Node) (single : Node)
deriving Inhabited

namespace Node

/-- Number and place; pieces that are no nodes of their own have neither. -/
def info : Node → Info
  | .omitted | .plain _ => {}
  | .general i _ | .identifier i _ | .comment i _ | .blankLine i | .builtin i _
  | .namedArgument i _ _ | .arguments i _ _ | .callOptions i _ _ | .call i _ _ _ | .metaType i _
  | .create i _ | .cast i _ _ _ | .truth i _ | .number i _ _ _ _ | .text i _ | .arrayLiteral i _ _
  | .tuple i _ | .inlineArray i _ | .name i _ | .member i _ _ | .index i _ _ | .range i _ _ _
  | .slice i _ _ _ _ | .owner i _ | .reveal i _ _ | .branch i _ _ _ | .whileLoop i _ _
  | .doWhileLoop i _ _ | .forLoop i _ _ _ _ | .breakLoop i | .continueLoop i | .catchClause i _ _ _
  | .tryCall i _ _ _ _ | .returnValue i _ | .emit i _ _ | .revert i _ _ | .assembly i _
  | .expressionStatement i _ | .require i _ _ _ | .assign i _ _ _ _ | .statements i _ _
  | .variableStatement i _ _ | .variablesStatement i _ _ | .elementary i _ | .userType i _ _
  | .mapping i _ _ _ | .arrayType i _ _ | .tupleType i _ | .functionType i _ _ _
  | .annotated i _ _ _ | .declaration i _ _ _ _ _ | .stateVariable i _ _ _ _ _ | .invocation i _ _
  | .override i _ | .function i _ _ _ _ _ _ | .modifier i _ _ _ _ _ | .enumValue i _ | .enum i _ _
  | .valueType i _ _ | .eventParameter i _ _ _ | .event i _ _ _ | .errorParameter i _ _
  | .error i _ _ | .using i _ _ | .struct i _ _ | .contract i _ _ _ _ | .pragma i _ _
  | .importFile i _ _ _ | .inheritance i _ _ | .interface i _ _ _ | .library i _ _
  | .source i _ _ _ => i

def id (n : Node) : Nat :=
  n.info.id

def line (n : Node) : Int :=
  n.info.line

def column (n : Node) : Int :=
  n.info.column

def isOmitted : Node → Bool
  | .omitted => true
  | _ => false

def withInfo (i : Info) : Node → Node
  | .omitted => .omitted
  | .plain v => .plain v
  | .general _ a => .general i a
  | .identifier _ a => .identifier i a
  | .comment _ a => .comment i a
  | .blankLine _ => .blankLine i
  | .builtin _ a => .builtin i a
  | .namedArgument _ a b => .namedArgument i a b
  | .arguments _ a b => .arguments i a b
  | .callOptions _ a b => .callOptions i a b
  | .call _ a b c => .call i a b c
  | .metaType _ a => .metaType i a
  | .create _ a => .create i a
  | .cast _ a b c => .cast i a b c
  | .truth _ a => .truth i a
  | .number _ a b c d => .number i a b c d
  | .text _ a => .text i a
  | .arrayLiteral _ a b => .arrayLiteral i a b
  | .tuple _ a => .tuple i a
  | .inlineArray _ a => .inlineArray i a
  | .name _ a => .name i a
  | .member _ a b => .member i a b
  | .index _ a b => .index i a b
  | .range _ a b c => .range i a b c
  | .slice _ a b c d => .slice i a b c d
  | .owner _ a => .owner i a
  | .reveal _ a b => .reveal i a b
  | .branch _ a b c => .branch i a b c
  | .whileLoop _ a b => .whileLoop i a b
  | .doWhileLoop _ a b => .doWhileLoop i a b
  | .forLoop _ a b c d => .forLoop i a b c d
  | .breakLoop _ => .breakLoop i
  | .continueLoop _ => .continueLoop i
  | .catchClause _ a b c => .catchClause i a b c
  | .tryCall _ a b c d => .tryCall i a b c d
  | .returnValue _ a => .returnValue i a
  | .emit _ a b => .emit i a b
  | .revert _ a b => .revert i a b
  | .assembly _ a => .assembly i a
  | .expressionStatement _ a => .expressionStatement i a
  | .require _ a b c => .require i a b c
  | .assign _ a b c d => .assign i a b c d
  | .statements _ a b => .statements i a b
  | .variableStatement _ a b => .variableStatement i a b
  | .variablesStatement _ a b => .variablesStatement i a b
  | .elementary _ a => .elementary i a
  | .userType _ a b => .userType i a b
  | .mapping _ a b c => .mapping i a b c
  | .arrayType _ a b => .arrayType i a b
  | .tupleType _ a => .tupleType i a
  | .functionType _ a b c => .functionType i a b c
  | .annotated _ a b c => .annotated i a b c
  | .declaration _ a b c d e => .declaration i a b c d e
  | .stateVariable _ a b c d e => .stateVariable i a b c d e
  | .invocation _ a b => .invocation i a b
  | .override _ a => .override i a
  | .function _ a b c d e f => .function i a b c d e f
  | .modifier _ a b c d e => .modifier i a b c d e
  | .enumValue _ a => .enumValue i a
  | .enum _ a b => .enum i a b
  | .valueType _ a b => .valueType i a b
  | .eventParameter _ a b c => .eventParameter i a b c
  | .event _ a b c => .event i a b c
  | .errorParameter _ a b => .errorParameter i a b
  | .error _ a b => .error i a b
  | .using _ a b => .using i a b
  | .struct _ a b => .struct i a b
  | .contract _ a b c d => .contract i a b c d
  | .pragma _ a b => .pragma i a b
  | .importFile _ a b c => .importFile i a b c
  | .inheritance _ a b => .inheritance i a b
  | .interface _ a b c => .interface i a b c
  | .library _ a b => .library i a b
  | .source _ a b c => .source i a b c

def placed (n : Node) (line column : Int) : Node :=
  n.withInfo { n.info with line, column }

end Node
end Confidential
