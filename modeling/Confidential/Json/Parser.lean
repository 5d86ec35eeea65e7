import Confidential.Value

/-!
Reading JSON. An error says what was expected and at which character.
-/

namespace Confidential.Json

structure Error where
  message : String
  position : Nat

def Error.describe (e : Error) (source : String) : String :=
  let before := source.toList.take e.position
  let line := before.count '\n' + 1
  let column := (before.reverse.takeWhile (· != '\n')).length + 1
  s!"{e.message}: line {line} column {column} (char {e.position})"

structure Cursor where
  rest : List Char
  position : Nat

namespace Cursor

def fail {α : Type} (c : Cursor) (message : String) : Except Error α :=
  .error ⟨message,c.position⟩

def advance (c : Cursor) (n : Nat) : Cursor :=
  ⟨c.rest.drop n,c.position + n⟩

def isSpace (c : Char) : Bool :=
  c == ' ' || c == '\t' || c == '\n' || c == '\r'

def skipSpaces (c : Cursor) : Cursor :=
  c.advance (c.rest.takeWhile isSpace).length

def startsWith (c : Cursor) (word : String) : Bool :=
  word.toList.isPrefixOf c.rest

end Cursor

def hexValue (c : Char) : Option Nat :=
  if '0' ≤ c && c ≤ '9' then some (c.toNat - 48)
  else if 'a' ≤ c && c ≤ 'f' then some (c.toNat - 87)
  else if 'A' ≤ c && c ≤ 'F' then some (c.toNat - 55)
  else none

def unit? : List Char → Option Nat
  | a :: b :: c :: d :: _ => do
    return (((← hexValue a) * 16 + (← hexValue b)) * 16 + (← hexValue c)) * 16 + (← hexValue d)
  | _ => none

def simpleEscape? : Char → Option Char
  | '"' => some '"'
  | '\\' => some '\\'
  | '/' => some '/'
  | 'b' => some '\x08'
  | 'f' => some '\x0c'
  | 'n' => some '\n'
  | 'r' => some '\r'
  | 't' => some '\t'
  | _ => none

def isHigh (n : Nat) : Bool := 0xD800 ≤ n && n ≤ 0xDBFF

def isLow (n : Nat) : Bool := 0xDC00 ≤ n && n ≤ 0xDFFF

/-- A half of a surrogate pair on its own has no character; the replacement character stands for it. -/
def charOfUnit (n : Nat) : Char :=
  if isHigh n || isLow n then '\ufffd' else Char.ofNat n

def lowHalf? : List Char → Option Nat
  | '\\' :: 'u' :: digits => (unit? digits).filter isLow
  | _ => none

def readText (start : Nat) : Nat → Cursor → List Char → Except Error (String × Cursor)
  | 0, _, _ => .error ⟨"Unterminated string starting at",start⟩
  | fuel + 1, c, done =>
    match c.rest with
    | [] => .error ⟨"Unterminated string starting at",start⟩
    | '"' :: _ => .ok (String.ofList done.reverse,c.advance 1)
    | ['\\'] => .error ⟨"Unterminated string starting at",start⟩
    | '\\' :: 'u' :: digits =>
      if digits.length < 5 then .error ⟨"Invalid \\uXXXX escape",c.position + 1⟩
      else match unit? digits with
        | none => .error ⟨"Invalid \\uXXXX escape",c.position + 1⟩
        | some n =>
          match if isHigh n then lowHalf? (digits.drop 4) else none with
          | some m =>
            readText start fuel (c.advance 12)
              (Char.ofNat (0x10000 + (n - 0xD800) * 1024 + (m - 0xDC00)) :: done)
          | none => readText start fuel (c.advance 6) (charOfUnit n :: done)
    | '\\' :: e :: _ =>
      match simpleEscape? e with
      | some ch => readText start fuel (c.advance 2) (ch :: done)
      | none => .error ⟨"Invalid \\escape",c.position⟩
    | ch :: _ =>
      if ch.toNat < 32 then .error ⟨"Invalid control character at",c.position⟩
      else readText start fuel (c.advance 1) (ch :: done)

def integerRun : List Char → Nat
  | '-' :: '0' :: _ => 2
  | '-' :: rest => let n := (rest.takeWhile Char.isDigit).length; if n = 0 then 0 else n + 1
  | '0' :: _ => 1
  | rest => (rest.takeWhile Char.isDigit).length

def fractionRun : List Char → Nat
  | '.' :: rest => let n := (rest.takeWhile Char.isDigit).length; if n = 0 then 0 else n + 1
  | _ => 0

def exponentRun : List Char → Nat
  | e :: rest =>
    if e == 'e' || e == 'E' then
      let sign := match rest with
        | '+' :: _ | '-' :: _ => 1
        | _ => 0
      let n := ((rest.drop sign).takeWhile Char.isDigit).length
      if n = 0 then 0 else n + sign + 1
    else 0
  | [] => 0

def digitsValue (cs : List Char) : Nat :=
  cs.foldl (fun n c => n * 10 + (c.toNat - 48)) 0

def decimalValue (negative : Bool) (whole fraction : List Char) (exponent : Int) : Float :=
  let e := exponent - fraction.length
  let x := Float.ofScientific (digitsValue (whole ++ fraction)) (e < 0) e.natAbs
  if negative then -x else x

def exponentValue : List Char → Int
  | _ :: '-' :: ds => -(digitsValue ds : Int)
  | _ :: '+' :: ds => digitsValue ds
  | _ :: ds => digitsValue ds
  | [] => 0

def readNumber? (c : Cursor) : Option (Value × Cursor) :=
  let i := integerRun c.rest
  if i = 0 then none
  else
    let f := fractionRun (c.rest.drop i)
    let e := exponentRun (c.rest.drop (i + f))
    let whole := c.rest.take i
    let negative := whole.head? == some '-'
    let digits := if negative then whole.drop 1 else whole
    if f = 0 && e = 0 then
      let n : Int := digitsValue digits
      some (.int (if negative then -n else n),c.advance i)
    else
      let fraction := ((c.rest.drop i).take f).drop 1
      let exponent := exponentValue ((c.rest.drop (i + f)).take e)
      some (.real (decimalValue negative digits fraction exponent),c.advance (i + f + e))

def putField (fields : List (String × Value)) (key : String) (v : Value) : List (String × Value) :=
  if fields.any (·.1 == key) then fields.map fun f => if f.1 == key then (key,v) else f
  else fields ++ [(key,v)]

mutual

def readValue : Nat → Cursor → Except Error (Value × Cursor)
  | 0, c => c.fail "Expecting value"
  | fuel + 1, c =>
    match c.rest with
    | '"' :: rest => do
      let (s,c) ← readText c.position (rest.length + 1) (c.advance 1) []
      return (.text s,c)
    | '\x7b' :: _ => do
      let c := (c.advance 1).skipSpaces
      if c.startsWith "\x7d" then return (.record [],c.advance 1)
      readFields fuel c []
    | '[' :: _ => do
      let c := (c.advance 1).skipSpaces
      if c.startsWith "]" then return (.list [],c.advance 1)
      readItems fuel c []
    | _ =>
      if c.startsWith "null" then .ok (.null,c.advance 4)
      else if c.startsWith "true" then .ok (.bool true,c.advance 4)
      else if c.startsWith "false" then .ok (.bool false,c.advance 5)
      else if c.startsWith "NaN" then .ok (.real (0.0 / 0.0),c.advance 3)
      else if c.startsWith "Infinity" then .ok (.real (1.0 / 0.0),c.advance 8)
      else if c.startsWith "-Infinity" then .ok (.real (-1.0 / 0.0),c.advance 9)
      else match readNumber? c with
        | some r => .ok r
        | none => c.fail "Expecting value"

def readItems : Nat → Cursor → List Value → Except Error (Value × Cursor)
  | 0, c, _ => c.fail "Expecting value"
  | fuel + 1, c, done => do
    let (v,c) ← readValue fuel c
    let c := c.skipSpaces
    if c.startsWith "]" then return (.list (v :: done).reverse,c.advance 1)
    if c.startsWith "," then readItems fuel (c.advance 1).skipSpaces (v :: done)
    else c.fail "Expecting ',' delimiter"

def readFields : Nat → Cursor → List (String × Value) → Except Error (Value × Cursor)
  | 0, c, _ => c.fail "Expecting value"
  | fuel + 1, c, done => do
    if !c.startsWith "\"" then c.fail "Expecting property name enclosed in double quotes"
    let (k,c) ← readText c.position c.rest.length (c.advance 1) []
    let c := c.skipSpaces
    if !c.startsWith ":" then c.fail "Expecting ':' delimiter"
    let (v,c) ← readValue fuel (c.advance 1).skipSpaces
    let c := c.skipSpaces
    let fields := putField done k v
    if c.startsWith "\x7d" then return (.record fields,c.advance 1)
    if c.startsWith "," then readFields fuel (c.advance 1).skipSpaces fields
    else c.fail "Expecting ',' delimiter"

end

def read (source : String) : Except Error Value := do
  let start : Cursor := ⟨source.toList,0⟩
  if start.startsWith "\ufeff" then start.fail "Unexpected UTF-8 BOM (decode using utf-8-sig)"
  let (v,c) ← readValue (source.length + 1) start.skipSpaces
  let c := c.skipSpaces
  if c.rest.isEmpty then return v else c.fail "Extra data"

end Confidential.Json
