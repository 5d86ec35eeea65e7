import Confidential.Parser

/-!
Reading expressions and type names.
-/

namespace Confidential.Surface

open Confidential.Parser

inductive Edge where
  | free
  | arguments
  | block
deriving DecidableEq

structure Rules where
  expr : Edge → Nat → Parser Expr
  type : Parser TypeName

namespace Rules

def empty : Rules :=
  ⟨fun _ _ => fail,fail⟩

/-- Level of the operators between two operands, and whether they group to the right. -/
def levels : List (Nat × Bool × List String) :=
  [(1,false,["=","|=","^=","&=","<<=",">>=","+=","-=","*=","/=","%="]),
   (2,true,["?"]),
   (3,false,["||"]),
   (4,false,["&&"]),
   (5,false,["==","!="]),
   (6,false,["<",">","<=",">="]),
   (7,false,["|"]),
   (8,false,["^"]),
   (9,false,["&"]),
   (10,false,["<<",">>"]),
   (11,false,["+","-"]),
   (12,false,["*","/","%"]),
   (13,true,["**"])]

def prefixLevel : Nat := 14

def levelOf (sign : String) : Option (Nat × Bool) :=
  (levels.find? fun l => l.2.2.contains sign).map fun l => (l.1,l.2.1)

def elementaryWords : List String :=
  ["address","address payable","bool","var","string","bytes","byte"]

def isElementary (t : Token) : Bool :=
  t.kind == .sizedType || elementaryWords.any t.isFixed

def elementary : Parser Word := do
  return Parser.word (← Parser.satisfy isElementary)

variable (r : Rules)

def expression : Parser Expr :=
  r.expr .free 0

def namedArg : Parser NamedArg := do
  let name ← Parser.name
  let _ ← fixed ":"
  return .mk name (← r.expression)

def namedArgs : Parser (List NamedArg) := do
  let _ ← fixed "\x7b"
  let args ← commaList r.namedArg "\x7d"
  let _ ← fixed "\x7d"
  return args

def args : Parser Args := do
  let start ← fixed "("
  if ← nextIs "\x7b" then
    let values ← r.namedArgs
    let _ ← fixed ")"
    return .named start.pos values
  else
    let values ← commaList r.expression ")"
    let _ ← fixed ")"
    return .positional start.pos values

/-! ### Types -/

def visibilityWords : List String := ["internal","external","private","public"]

def mutabilityWords : List String := ["pure","view","payable"]

def annotated : Parser Annotated := do
  let pos ← here
  let type ← r.type
  let owner ← Parser.optional (do let _ ← fixed "@"; r.expression)
  return .mk pos type owner

def storage : Parser String := do
  return (← oneOf ["memory","storage","calldata"]).text

def param : Parser Param := do
  let pos ← here
  let isFinal ← Parser.optional (fixed "final")
  let type ← r.annotated
  let place ← Parser.optional storage
  let name ← Parser.optional Parser.name
  return .mk pos isFinal.isSome type place name

def variableDeclaration : Parser Param := do
  let pos ← here
  let isFinal ← Parser.optional (fixed "final")
  let type ← r.annotated
  let place ← Parser.optional storage
  let name ← Parser.name
  return .mk pos isFinal.isSome type place (some name)

def params : Parser (List Param) := do
  let _ ← fixed "("
  let ps ← commaList r.param ")"
  let _ ← fixed ")"
  return ps

def returns : Parser (List Param) := do
  let _ ← fixed "returns"
  r.params

def functionType : Parser TypeName := do
  let start ← fixed "function"
  let ps ← Parser.optional r.params
  let marks ← many (oneOf (visibilityWords ++ mutabilityWords))
  let outs ← Parser.optional r.returns
  return .function start.pos ps (marks.filter fun w => visibilityWords.contains w.text)
    (marks.filter fun w => mutabilityWords.contains w.text) outs

def mapping : Parser TypeName := do
  let start ← fixed "mapping"
  let _ ← fixed "("
  let key ← elementary
  let label ← Parser.optional (do let _ ← fixed "!"; Parser.name)
  let _ ← fixed "=>"
  let value ← r.annotated
  let _ ← fixed ")"
  return .mapping start.pos key label value

def path : Parser (List Word) :=
  separated Parser.name "."

def typeBase : Parser TypeName :=
  (do return .elementary (← elementary))
    <|> r.functionType
    <|> (do return .path (← path))
    <|> r.mapping

def arraySize : Parser (Option Expr) := do
  let _ ← fixed "["
  let size ← if ← nextIs "]" then pure none else some <$> closely r.expression
  let _ ← fixed "]"
  return size

def typeName : Parser TypeName := do
  let pos ← here
  let base ← r.typeBase
  let sizes ← many r.arraySize
  return sizes.foldl (fun t size => .array pos t size) base

/-! ### Expressions -/

def quoted : Parser Expr := do
  let w ← Parser.kind .text
  return .quoted w.pos w.text

def truth : Parser Expr := do
  let w ← Parser.kind .truth
  return .truth w.pos (w.text == "true")

def number : Parser Expr :=
  (do let w ← Parser.kind .decimal; return .number w.pos false w.text)
    <|> (do let w ← Parser.kind .hexadecimal; return .number w.pos true w.text)

def owner : Parser Expr :=
  (do let w ← fixed "me"; return .owner w.pos .me)
    <|> (do let w ← fixed "all"; return .owner w.pos .all)
    <|> (do let w ← fixed "tee"; return .owner w.pos .tee)

def component : Parser (Option Expr) := do
  let t ← peek
  if t.isFixed "," || t.isFixed ")" then return none else some <$> r.expression

def tuple : Parser Expr := do
  let start ← fixed "("
  let components ← separated r.component ","
  let _ ← fixed ")"
  return .tuple start.pos components

def inlineArray : Parser Expr := do
  let start ← fixed "["
  let elements ← separated r.expression ","
  let _ ← fixed "]"
  return .inlineArray start.pos elements

def metaType : Parser Expr := do
  let start ← fixed "type"
  let _ ← fixed "("
  let type ← r.type
  let _ ← fixed ")"
  return .metaType start.pos type

def payable : Parser Expr := do
  let start ← fixed "payable"
  return .payable start.pos (← r.args)

/-- Reads `p`, unless its brackets are the arguments that have to follow the expression. -/
def leaving {α : Type} (edge : Edge) (p : Parser α) : Parser α := do
  let a ← p
  if edge == .arguments then
    if ← nextIs ";" then fail
  return a

def create (edge : Edge) : Parser Expr := do
  let start ← fixed "new"
  let type ← leaving edge r.type <|> (do return .function (← fixed "function").pos none [] [] none)
  return .create start.pos type

def prefixed (edge : Edge) : Parser Expr :=
  (do
    let sign ← oneOf ["++","--"]
    return .step sign.pos false sign (← r.expr edge prefixLevel))
  <|> (do
    let sign ← oneOf ["+","-","!","~"]
    return .unary sign.pos sign (← r.expr edge prefixLevel))

def operand (edge : Edge) : Parser Expr :=
  owner <|> r.payable <|> r.metaType <|> r.prefixed edge <|> r.create edge <|> r.tuple <|> r.inlineArray
    <|> (do return .name (← Parser.name))
    <|> truth <|> number <|> quoted
    <|> (do return .elementary (← elementary))

def bracketed (pos : Pos) (head : String) (base : Expr) : Parser Expr := do
  let _ ← fixed "["
  let t ← peek
  let first ← if t.isFixed "]" || t.isFixed ":" then pure none
    else some <$> closely r.expression
  (do
    let _ ← fixed "]"
    return .index pos base first)
  <|> (do
    let _ ← fixed ":"
    let last ← if ← nextIs "]" then pure none else some <$> r.expression
    let _ ← fixed "]"
    return .range pos head base first last)

def membered (pos : Pos) (base : Expr) : Parser Expr := do
  let _ ← fixed "."
  (do return .member pos base (some (← Parser.name)))
    <|> (do let _ ← fixed "address"; return .member pos base none)

def called (edge : Edge) (pos : Pos) (callee : Expr) : Parser Expr := do
  return .call pos callee (← leaving edge (Parser.whole r.args))

def opensBlock : List Token → Bool
  | brace :: t :: next :: _ =>
    brace.isFixed "\x7b" &&
      if t.isFixed "\x7d" then next.isFixed "catch" else !(t.kind == .name && next.isFixed ":")
  | _ => true

def optioned (edge : Edge) (pos : Pos) (callee : Expr) : Parser Expr := do
  if edge == .block && (← Parser.ahead opensBlock) then fail
  return .options pos callee (← r.namedArgs)

def stepped (pos : Pos) (base : Expr) : Parser Expr := do
  let sign ← oneOf ["++","--"]
  return .step pos true sign base

/-- Indices, members, calls, call options and steps behind `base`, at most `n` of them. -/
def suffixed (edge : Edge) (pos : Pos) (head : String) : Nat → Expr → Parser Expr
  | 0, base => pure base
  | n + 1, base =>
    (do
      let longer ← r.bracketed pos head base <|> membered pos base <|> r.optioned edge pos base
        <|> r.called edge pos base <|> stepped pos base
      suffixed edge pos head n longer)
    <|> pure base

def operation (edge : Edge) (pos : Pos) (left : Expr) (sign : Word) (level : Nat) (toRight : Bool) :
    Parser Expr := do
  if sign.text == "?" then
    let yes ← r.expression
    let _ ← fixed ":"
    let no ← r.expr edge level
    return .conditional pos left yes no
  else
    let right ← r.expr edge (if toRight then level else level + 1)
    return if level == 1 then .assign pos sign left right else .binary pos sign left right

/-- Operations of at least the given level behind `left`, at most `n` of them. -/
def climb (edge : Edge) (pos : Pos) (level : Nat) : Nat → Expr → Parser Expr
  | 0, left => pure left
  | n + 1, left => do
    let t ← peek
    match if t.kind == .fixed then levelOf t.text else none with
    | some (l,toRight) =>
      if l < level then return left
      let sign ← fixed t.text
      let longer ← r.operation edge pos left sign l toRight
      climb edge pos level n longer
    | none => return left

def exprAt (edge : Edge) (level : Nat) : Parser Expr := do
  let first ← peek
  let n ← Parser.remaining
  let base ← r.operand edge
  let left ← r.suffixed edge first.pos first.text n base
  r.climb edge first.pos level n left

def deeper : Rules :=
  ⟨r.exprAt,r.typeName⟩

/-- Readers for texts of `n` tokens: a piece inside another piece has fewer tokens. -/
def depth : Nat → Rules
  | 0 => empty
  | n + 1 => (depth n).deeper

end Rules
end Confidential.Surface
