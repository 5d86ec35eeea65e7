import Confidential.Surface.Assembly
import Confidential.Surface.Expressions

/-!
Reading statements.
-/

namespace Confidential.Surface.Rules

open Confidential.Parser

variable (r : Rules)

section

variable (statement : Parser Stmt)

def block : Parser Stmt := do
  let start ← fixed "\x7b"
  let body ← many statement
  let _ ← fixed "\x7d"
  return .block start.pos body

def variableStatement : Parser Stmt := do
  let pos ← here
  let declaration ← r.variableDeclaration
  let value ← Parser.optional (do let _ ← fixed "="; r.expression)
  let _ ← fixed ";"
  return .variable pos declaration value

def expressionStatement : Parser Stmt := do
  let pos ← here
  let value ← r.expression
  let _ ← fixed ";"
  return .expression pos value

/-- Declarations in brackets. Places may be left empty, but not all of them. -/
def variablesStatement : Parser Stmt := do
  let start ← fixed "("
  let skipped ← many (fixed ",")
  let first ← r.variableDeclaration
  let more ← many (do let _ ← fixed ","; Parser.optional r.variableDeclaration)
  let _ ← fixed ")"
  let _ ← fixed "="
  let value ← r.expression
  let _ ← fixed ";"
  return .declarations start.pos (skipped.map (fun _ => none) ++ some first :: more) value

def simpleStatement : Parser Stmt :=
  r.variableStatement <|> r.expressionStatement <|> r.variablesStatement

def condition : Parser Expr := do
  let _ ← fixed "("
  let c ← r.expression
  let _ ← fixed ")"
  return c

def branch : Parser Stmt := do
  let start ← fixed "if"
  let c ← r.condition
  let yes ← statement
  let no ← Parser.optional (do let _ ← fixed "else"; statement)
  return .branch start.pos c yes no

def forLoop : Parser Stmt := do
  let start ← fixed "for"
  let _ ← fixed "("
  let init ← (do let _ ← fixed ";"; return none) <|> some <$> r.simpleStatement
  let c ← if ← nextIs ";" then pure none else some <$> r.expression
  let _ ← fixed ";"
  let update ← if ← nextIs ")" then pure none else some <$> r.expression
  let _ ← fixed ")"
  return .forLoop start.pos init c update (← statement)

def whileLoop : Parser Stmt := do
  let start ← fixed "while"
  let c ← r.condition
  return .whileLoop start.pos c (← statement)

def doWhileLoop : Parser Stmt := do
  let start ← fixed "do"
  let body ← statement
  let _ ← fixed "while"
  let c ← r.condition
  let _ ← fixed ";"
  return .doWhileLoop start.pos body c

def jump : Parser Stmt :=
  (do
    let start ← fixed "continue"
    let _ ← fixed ";"
    return .continueLoop start.pos)
  <|> (do
    let start ← fixed "break"
    let _ ← fixed ";"
    return .breakLoop start.pos)

def catchClause : Parser CatchClause := do
  let start ← fixed "catch"
  let name ← Parser.optional Parser.name
  let ps ← Parser.optional r.params
  return .mk start.pos name ps (← block statement)

/-- The results of the call stand in two pairs of brackets. -/
def tryCall : Parser Stmt := do
  let start ← fixed "try"
  let call ← r.expr .block 0
  let outs ← Parser.optional (do
    let _ ← fixed "returns"
    let _ ← fixed "("
    let ps ← r.params
    let _ ← fixed ")"
    return ps)
  let body ← block statement
  let clauses ← Parser.many1 (r.catchClause statement)
  return .tryCall start.pos call outs body clauses

def returnValue : Parser Stmt := do
  let start ← fixed "return"
  let value ← if ← nextIs ";" then pure none else some <$> r.expression
  let _ ← fixed ";"
  return .returnValue start.pos value

def emit : Parser Stmt := do
  let start ← fixed "emit"
  let event ← r.expr .arguments 0
  let args ← r.args
  let _ ← fixed ";"
  return .emit start.pos event args

def revert : Parser Stmt := do
  let start ← fixed "revert"
  let error ← r.expr .arguments 0
  let args ← r.args
  let _ ← fixed ";"
  return .revert start.pos error args

def assembly : Parser Stmt := do
  let start ← fixed "assembly"
  let _ ← Parser.optional (fixed "\"evmasm\"")
  let _ ← fixed "\x7b"
  let _ ← many (Assembly.statement (← Parser.remaining))
  let stop ← fixed "\x7d"
  return .assembly start.pos stop.pos

end

def statementWith (inner : Parser Stmt) : Parser Stmt :=
  block inner <|> r.simpleStatement <|> r.branch inner <|> r.forLoop inner <|> r.whileLoop inner
    <|> r.doWhileLoop inner <|> jump <|> r.tryCall inner <|> r.returnValue <|> r.emit <|> r.revert
    <|> assembly

def statement : Nat → Parser Stmt
  | 0 => fail
  | n + 1 => r.statementWith (statement n)

end Confidential.Surface.Rules
