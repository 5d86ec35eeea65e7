import Confidential.Surface.Statements
import Confidential.Token.Lexer

/-!
Reading declarations and whole source texts.
-/

namespace Confidential.Surface.Rules

open Confidential.Parser

variable (r : Rules) (statement : Parser Stmt)

/-! ### Heads of functions -/

def visibility : Parser Mark := do
  return .visibility (← oneOf visibilityWords)

def mutability : Parser Mark := do
  return .mutability (← oneOf mutabilityWords)

def keyword (words : List String) : Parser Mark := do
  return .keyword (← oneOf words)

def invocation : Parser Mark := do
  let pos ← here
  let names ← path
  return .invocation pos names (← Parser.optional r.args)

def override : Parser Mark := do
  let start ← fixed "override"
  let paths ← Parser.optional (do
    let _ ← fixed "("
    let paths ← separated path ","
    let _ ← fixed ")"
    return paths)
  return .override start.pos (paths.getD [])

def body : Parser (Option Stmt) :=
  (do let _ ← fixed ";"; return none) <|> some <$> block statement

/-! ### Parts of contracts -/

def constructor : Parser Decl := do
  let start ← fixed "constructor"
  let ps ← r.params
  let marks ← many (r.invocation <|> keyword ["payable","internal","public"])
  return .constructor start.pos ps marks (← block statement)

def function : Parser Decl := do
  let start ← fixed "function"
  let (special,name) ← (do return (false,← Parser.name))
    <|> (do return (true,← oneOf ["fallback","receive"]))
  let ps ← r.params
  let marks ← many
    (visibility <|> mutability <|> r.invocation <|> keyword ["virtual"] <|> override)
  let outs ← Parser.optional r.returns
  return .function start.pos special name ps marks outs (← body statement)

def modifier : Parser Decl := do
  let start ← fixed "modifier"
  let name ← Parser.name
  let ps ← r.params
  let marks ← many (keyword ["virtual"] <|> override)
  return .modifier start.pos name ps marks (← body statement)

def fallback : Parser Decl := do
  let start ← fixed "fallback"
  let ps ← Parser.optional r.params
  let marks ← many
    (keyword ["external","virtual"] <|> mutability <|> r.invocation <|> override)
  let outs ← Parser.optional r.returns
  return .fallback start.pos ps marks outs (← body statement)

def receive : Parser Decl := do
  let start ← fixed "receive"
  let _ ← fixed "("
  let _ ← fixed ")"
  let marks ← many
    (keyword ["external","payable","virtual"] <|> r.invocation <|> override)
  return .receive start.pos marks (← body statement)

def member : Parser Member := do
  let pos ← here
  let type ← r.type
  let name ← Parser.name
  let _ ← fixed ";"
  return .mk pos type name

def struct : Parser Decl := do
  let start ← fixed "struct"
  let name ← Parser.name
  let _ ← fixed "\x7b"
  let members ← Parser.many1 r.member
  let _ ← fixed "\x7d"
  return .struct start.pos name members

def enum : Parser Decl := do
  let start ← fixed "enum"
  let name ← Parser.name
  let _ ← fixed "\x7b"
  let first ← Parser.optional Parser.name
  let more ← many (do let _ ← fixed ","; Parser.name)
  let _ ← fixed "\x7d"
  return .enum start.pos name (first.toList ++ more)

def valueType : Parser Decl := do
  let start ← fixed "type"
  let name ← Parser.name
  let _ ← fixed "is"
  let type ← elementary
  let _ ← fixed ";"
  return .valueType start.pos name type

def stateVariable : Parser Decl := do
  let pos ← here
  let finals ← many (fixed "final")
  let type ← r.annotated
  let marks ← many
    (keyword ["public","private","internal","constant","immutable"] <|> override)
  let name ← Parser.name
  let value ← Parser.optional (do let _ ← fixed "="; r.expression)
  let _ ← fixed ";"
  return .stateVariable pos finals type marks name value

def eventParam : Parser EventParam := do
  let pos ← here
  let type ← r.annotated
  let indexed ← Parser.optional (fixed "indexed")
  return .mk pos type indexed (← Parser.optional Parser.name)

def event : Parser Decl := do
  let start ← fixed "event"
  let name ← Parser.name
  let _ ← fixed "("
  let ps ← commaList r.eventParam ")"
  let _ ← fixed ")"
  let anonymous ← Parser.optional (fixed "anonymous")
  let _ ← fixed ";"
  return .event start.pos name ps anonymous

def errorParam : Parser ErrorParam := do
  let pos ← here
  let type ← r.annotated
  return .mk pos type (← Parser.optional Parser.name)

def error : Parser Decl := do
  let start ← fixed "error"
  let name ← Parser.name
  let _ ← fixed "("
  let ps ← commaList r.errorParam ")"
  let _ ← fixed ")"
  let _ ← fixed ";"
  return .error start.pos name ps

def usingLibrary : Parser Decl := do
  let start ← fixed "using"
  let names ← path
  let _ ← fixed "for"
  let type ← (do let _ ← fixed "*"; return none) <|> some <$> r.type
  let _ ← fixed ";"
  return .using start.pos names type

def part : Parser Decl :=
  r.constructor statement <|> r.function statement <|> r.modifier statement
    <|> r.fallback statement <|> r.receive statement <|> r.struct <|> enum <|> valueType
    <|> r.stateVariable <|> r.event <|> r.error <|> r.usingLibrary

def parts : Parser (List Decl) := do
  let _ ← fixed "\x7b"
  let ps ← many (r.part statement)
  let _ ← fixed "\x7d"
  return ps

/-! ### Declarations outside of contracts -/

def versionConstraint : Parser String := do
  let sign ← Parser.optional (oneOf ["^","~",">=",">","<","<=","="])
  let version ← Parser.kind .version
  return (sign.map (·.text)).getD "" ++ version.text

def pragma : Parser Decl := do
  let start ← fixed "pragma"
  let name ← oneOf ["cloak","solidity"]
  let first ← versionConstraint
  let second ← Parser.optional versionConstraint
  let _ ← fixed ";"
  return .pragma start.pos name (first ++ second.getD "")

def renamed : Parser (Option Word) :=
  Parser.optional (do let _ ← fixed "as"; Parser.name)

/-- What is imported from a file: all of it, some names, or all of it under one name. The names
themselves are not kept. -/
def importFile : Parser Decl := do
  let start ← fixed "import"
  let (file,unitName) ←
    (do
      let file ← Parser.kind .text
      return (file,← renamed))
    <|> (do
      let _ ← fixed "\x7b"
      let _ ← separated (do let _ ← Parser.name; renamed) ","
      let _ ← fixed "\x7d"
      let _ ← fixed "from"
      return (← Parser.kind .text,none))
    <|> (do
      let _ ← fixed "*"
      let _ ← fixed "as"
      let unitName ← Parser.name
      let _ ← fixed "from"
      return (← Parser.kind .text,some unitName))
  let _ ← fixed ";"
  return .importFile start.pos file unitName

def contract : Parser Decl := do
  let start ← fixed "contract"
  let name ← Parser.name
  return .contract start.pos name (← r.parts statement)

def base : Parser Base := do
  let pos ← here
  let names ← path
  return .mk pos names (← Parser.optional r.args)

def interface : Parser Decl := do
  let start ← fixed "interface"
  let name ← Parser.name
  let bases ← Parser.optional (do let _ ← fixed "is"; separated r.base ",")
  return .interface start.pos name (bases.getD []) (← r.parts statement)

def library : Parser Decl := do
  let start ← fixed "library"
  let name ← Parser.name
  return .library start.pos name (← r.parts statement)

def constant : Parser Decl := do
  let pos ← here
  let type ← r.annotated
  let _ ← fixed "constant"
  let name ← Parser.name
  let _ ← fixed "="
  let value ← r.expression
  let _ ← fixed ";"
  return .constant pos type name value

def topLevel : Parser Decl :=
  pragma <|> importFile <|> r.contract statement <|> r.interface statement <|> r.library statement
    <|> r.function statement <|> r.constant <|> r.struct <|> enum <|> valueType <|> r.error

/-- A single piece of syntax behind the word `SOL`: the first of type, expression, statement and part of a
contract that the whole text can be read as. -/
def single : Parser Source := do
  let start ← fixed "SOL"
  (do let t ← r.type; finish; return .type start.pos t)
    <|> (do let e ← closely r.expression; finish; return .expression start.pos e)
    <|> (do let s ← closely statement; finish; return .statement start.pos s)
    <|> (do let p ← r.part statement; finish; return .part start.pos p)

def source : Parser Source :=
  r.single statement
    <|> (do
      let pos ← here
      let decls ← closely (many (r.topLevel statement))
      finish
      return .unit pos decls)

end Rules

def Source.reader (n : Nat) : Parser Source :=
  (Rules.depth n).source ((Rules.depth n).statement n)

/-- Reads a source text from its visible tokens; the error is the first token that fits nowhere. -/
def Source.ofTokens (ts : List Token) : Except Token Source :=
  (Source.reader ts.length).run ts

def Source.parse (text : String) : Except Token Source :=
  Source.ofTokens (Token.visible (Token.ofSource text))

/-- A source text and the number of visible tokens that it takes. -/
def Source.read (text : String) : Except Token (Source × Nat) :=
  let ts := Token.visible (Token.ofSource text)
  (Source.reader ts.length).read ts

end Confidential.Surface
