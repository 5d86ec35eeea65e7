import Confidential.Owner
import Confidential.Token

/-!
The concrete syntax: what the grammar tells apart, with the place where each piece starts.
-/

namespace Confidential.Surface

/-- A piece of text and its place: a name, an operator sign, a keyword or a type word. -/
structure Word where
  pos : Pos
  text : String
deriving DecidableEq

mutual

inductive Expr where
  | owner (pos : Pos) (who : Owner)
  | index (pos : Pos) (base : Expr) (key : Option Expr)
  /-- A slice `base[first:last]`; `head` is the first word of the whole expression. -/
  | range (pos : Pos) (head : String) (base : Expr) (first last : Option Expr)
  /-- Without a name the member is `address`. -/
  | member (pos : Pos) (base : Expr) (name : Option Word)
  | options (pos : Pos) (callee : Expr) (args : List NamedArg)
  | call (pos : Pos) (callee : Expr) (args : Args)
  | payable (pos : Pos) (args : Args)
  | metaType (pos : Pos) (type : TypeName)
  /-- A step by one, with its sign behind the operand (`after`) or before it. -/
  | step (pos : Pos) (after : Bool) (sign : Word) (operand : Expr)
  | unary (pos : Pos) (sign : Word) (operand : Expr)
  | binary (pos : Pos) (sign : Word) (left right : Expr)
  | conditional (pos : Pos) (condition yes no : Expr)
  | assign (pos : Pos) (sign : Word) (left right : Expr)
  | create (pos : Pos) (type : TypeName)
  | tuple (pos : Pos) (components : List (Option Expr))
  | inlineArray (pos : Pos) (elements : List Expr)
  | name (name : Word)
  | truth (pos : Pos) (value : Bool)
  | number (pos : Pos) (hexadecimal : Bool) (digits : String)
  | quoted (pos : Pos) (text : String)
  | elementary (type : Word)

inductive Args where
  | positional (pos : Pos) (values : List Expr)
  | named (pos : Pos) (values : List NamedArg)

inductive NamedArg where
  | mk (name : Word) (value : Expr)

inductive TypeName where
  | elementary (type : Word)
  | function (pos : Pos) (parameters : Option (List Param)) (visibility mutability : List Word)
      (returns : Option (List Param))
  | path (names : List Word)
  | array (pos : Pos) (element : TypeName) (size : Option Expr)
  | mapping (pos : Pos) (key : Word) (label : Option Word) (value : Annotated)

inductive Annotated where
  | mk (pos : Pos) (type : TypeName) (owner : Option Expr)

inductive Param where
  | mk (pos : Pos) (isFinal : Bool) (type : Annotated) (storage : Option String) (name : Option Word)

end

/-- A condition, a modifier or a keyword in the head of a function. -/
inductive Mark where
  | visibility (word : Word)
  | mutability (word : Word)
  | keyword (word : Word)
  | invocation (pos : Pos) (path : List Word) (args : Option Args)
  | override (pos : Pos) (paths : List (List Word))

mutual

inductive Stmt where
  | block (pos : Pos) (body : List Stmt)
  | variable (pos : Pos) (declaration : Param) (value : Option Expr)
  | expression (pos : Pos) (value : Expr)
  | declarations (pos : Pos) (declared : List (Option Param)) (value : Expr)
  | branch (pos : Pos) (condition : Expr) (yes : Stmt) (no : Option Stmt)
  | forLoop (pos : Pos) (start : Option Stmt) (condition update : Option Expr) (body : Stmt)
  | whileLoop (pos : Pos) (condition : Expr) (body : Stmt)
  | doWhileLoop (pos : Pos) (body : Stmt) (condition : Expr)
  | continueLoop (pos : Pos)
  | breakLoop (pos : Pos)
  | tryCall (pos : Pos) (call : Expr) (returns : Option (List Param)) (body : Stmt)
      (clauses : List CatchClause)
  | returnValue (pos : Pos) (value : Option Expr)
  | emit (pos : Pos) (event : Expr) (args : Args)
  | revert (pos : Pos) (error : Expr) (args : Args)
  /-- Assembly is kept as it stands in the source, from `pos` to the bracket at `last`. -/
  | assembly (pos last : Pos)

inductive CatchClause where
  | mk (pos : Pos) (name : Option Word) (parameters : Option (List Param)) (body : Stmt)

end

inductive EventParam where
  | mk (pos : Pos) (type : Annotated) (indexed : Option Word) (name : Option Word)

inductive ErrorParam where
  | mk (pos : Pos) (type : Annotated) (name : Option Word)

inductive Member where
  | mk (pos : Pos) (type : TypeName) (name : Word)

inductive Base where
  | mk (pos : Pos) (path : List Word) (args : Option Args)

inductive Decl where
  | constructor (pos : Pos) (parameters : List Param) (marks : List Mark) (body : Stmt)
  /-- The name is a keyword if `special` holds. -/
  | function (pos : Pos) (special : Bool) (name : Word) (parameters : List Param) (marks : List Mark)
      (returns : Option (List Param)) (body : Option Stmt)
  | modifier (pos : Pos) (name : Word) (parameters : List Param) (marks : List Mark)
      (body : Option Stmt)
  | fallback (pos : Pos) (parameters : Option (List Param)) (marks : List Mark)
      (returns : Option (List Param)) (body : Option Stmt)
  | receive (pos : Pos) (marks : List Mark) (body : Option Stmt)
  | struct (pos : Pos) (name : Word) (members : List Member)
  | enum (pos : Pos) (name : Word) (values : List Word)
  | valueType (pos : Pos) (name : Word) (type : Word)
  | stateVariable (pos : Pos) (finals : List Word) (type : Annotated) (marks : List Mark)
      (name : Word) (value : Option Expr)
  | event (pos : Pos) (name : Word) (parameters : List EventParam) (anonymous : Option Word)
  | error (pos : Pos) (name : Word) (parameters : List ErrorParam)
  /-- Without a type the library is used for all types. -/
  | using (pos : Pos) (path : List Word) (type : Option TypeName)
  | pragma (pos : Pos) (name : Word) (version : String)
  | importFile (pos : Pos) (path : Word) (unitName : Option Word)
  | contract (pos : Pos) (name : Word) (parts : List Decl)
  | interface (pos : Pos) (name : Word) (bases : List Base) (parts : List Decl)
  | library (pos : Pos) (name : Word) (parts : List Decl)
  | constant (pos : Pos) (type : Annotated) (name : Word) (value : Expr)

inductive Source where
  | unit (pos : Pos) (parts : List Decl)
  | type (pos : Pos) (type : TypeName)
  | expression (pos : Pos) (value : Expr)
  | statement (pos : Pos) (statement : Stmt)
  | part (pos : Pos) (part : Decl)

def Source.isUnit : Source → Bool
  | .unit .. => true
  | _ => false

def Expr.pos : Expr → Pos
  | .owner p _ | .index p _ _ | .range p _ _ _ _ | .member p _ _ | .options p _ _ | .call p _ _
  | .payable p _ | .metaType p _ | .step p _ _ _ | .unary p _ _ | .binary p _ _ _
  | .conditional p _ _ _ | .assign p _ _ _ | .create p _ | .tuple p _ | .inlineArray p _
  | .truth p _ | .number p _ _ | .quoted p _ => p
  | .name w | .elementary w => w.pos
end Confidential.Surface
