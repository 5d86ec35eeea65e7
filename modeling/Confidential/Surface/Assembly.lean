import Confidential.Parser

/-!
Assembly blocks. They are only checked for their form: the program keeps their text.
-/

namespace Confidential.Surface.Assembly

open Confidential.Parser (fixed name kind oneOf optional many many1 separated commaList)

def path : Parser Unit := do
  let _ ← separated name "."

def literal : Parser Unit := do
  let _ ← kind .decimal <|> kind .text <|> kind .hexadecimal <|> kind .truth <|> kind .hexText

def call (expression : Parser Unit) : Parser Unit := do
  let _ ← name
  let _ ← fixed "("
  let _ ← commaList expression ")"
  let _ ← fixed ")"

def expression : Nat → Parser Unit
  | 0 => Parser.fail
  | n + 1 => call (expression n) <|> path <|> literal

def block (statement : Parser Unit) : Parser Unit := do
  let _ ← fixed "\x7b"
  let _ ← many statement
  let _ ← fixed "\x7d"

def assignment (n : Nat) : Parser Unit :=
  (do
    path
    let _ ← fixed ":="
    expression n)
  <|> (do
    path
    let _ ← many1 (do let _ ← fixed ","; path)
    let _ ← fixed ":="
    call (expression n))

/-- One variable takes any value, several take the results of a call. -/
def declaration (n : Nat) : Parser Unit := do
  let _ ← fixed "let"
  let names ← separated name ","
  let _ ← optional (do
    let _ ← fixed ":="
    if names.length == 1 then expression n else call (expression n))

def case (statement : Parser Unit) : Parser Unit := do
  let _ ← fixed "case"
  literal
  block statement

def defaultCase (statement : Parser Unit) : Parser Unit := do
  let _ ← fixed "default"
  block statement

def choice (n : Nat) (statement : Parser Unit) : Parser Unit := do
  let _ ← fixed "switch"
  expression n
  (do
    let _ ← many1 (case statement)
    let _ ← optional (defaultCase statement))
  <|> defaultCase statement

def definition (statement : Parser Unit) : Parser Unit := do
  let _ ← fixed "function"
  let _ ← name
  let _ ← fixed "("
  let _ ← commaList name ")"
  let _ ← fixed ")"
  let _ ← optional (do let _ ← fixed "->"; separated name ",")
  block statement

def condition (n : Nat) (statement : Parser Unit) : Parser Unit := do
  let _ ← fixed "if"
  expression n
  block statement

def loop (n : Nat) (statement : Parser Unit) : Parser Unit := do
  let _ ← fixed "for"
  block statement
  expression n
  block statement
  block statement

def jump : Parser Unit := do
  let _ ← oneOf ["leave","break","continue"]

def statement : Nat → Parser Unit
  | 0 => Parser.fail
  | n + 1 =>
    let inner := statement n
    block inner <|> declaration n <|> assignment n <|> call (expression n) <|> condition n inner
      <|> loop n inner <|> choice n inner <|> jump <|> definition inner

end Confidential.Surface.Assembly
