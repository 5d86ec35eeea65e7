import Confidential.Decimal
import Confidential.Value

/-!
Plain data as JSON.
-/

namespace Confidential.Json

structure Layout where
  comma : String := ","
  colon : String := ":"
  step : Option Nat := none

def compact : Layout := {}

def spaced : Layout := { comma := ", ", colon := ": " }

def lined : Layout := { comma := ",", colon := ": ", step := some 2 }

def hex4 (n : Nat) : String :=
  let digits := Text.hexDigits n
  String.ofList (List.replicate (4 - digits.length) '0') ++ digits

def escaped (c : Char) : String :=
  let n := c.toNat
  if c == '"' then "\\\""
  else if c == '\\' then "\\\\"
  else if c == '\n' then "\\n"
  else if c == '\r' then "\\r"
  else if c == '\t' then "\\t"
  else if n == 8 then "\\b"
  else if n == 12 then "\\f"
  else if 32 ≤ n && n < 127 then String.singleton c
  else if n < 65536 then "\\u" ++ hex4 n
  else
    let m := n - 65536
    "\\u" ++ hex4 (55296 + m / 1024) ++ "\\u" ++ hex4 (56320 + m % 1024)

def quoted (s : String) : String :=
  "\"" ++ String.join (s.toList.map escaped) ++ "\""

def newline (layout : Layout) (level : Nat) : String :=
  match layout.step with
  | some n => "\n" ++ String.ofList (List.replicate (n * level) ' ')
  | none => ""

mutual

def render (layout : Layout) (level : Nat) : Value → String
  | .null => "null"
  | .bool b => if b then "true" else "false"
  | .int n => toString n
  | .real x => Decimal.text x "NaN" "Infinity"
  | .text s => quoted s
  | .list [] => "[]"
  | .list (v :: rest) =>
    "[" ++ newline layout (level + 1) ++ render layout (level + 1) v
      ++ renderItems layout (level + 1) rest ++ newline layout level ++ "]"
  | .record [] => "\x7b\x7d"
  | .record ((k,v) :: rest) =>
    "\x7b" ++ newline layout (level + 1) ++ quoted k ++ layout.colon ++ render layout (level + 1) v
      ++ renderFields layout (level + 1) rest ++ newline layout level ++ "\x7d"

def renderItems (layout : Layout) (level : Nat) : List Value → String
  | [] => ""
  | v :: rest =>
    layout.comma ++ newline layout level ++ render layout level v ++ renderItems layout level rest

def renderFields (layout : Layout) (level : Nat) : List (String × Value) → String
  | [] => ""
  | (k,v) :: rest =>
    layout.comma ++ newline layout level ++ quoted k ++ layout.colon ++ render layout level v
      ++ renderFields layout level rest

end

def write (layout : Layout) (v : Value) : String :=
  render layout 0 v

end Confidential.Json
