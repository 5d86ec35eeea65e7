/-!
Blank characters. Finding and replacing a piece of text. Integers in texts.
-/

namespace Confidential.Text

def isBlank (c : Char) : Bool :=
  let n := c.toNat
  (9 ≤ n && n ≤ 13) || (28 ≤ n && n ≤ 32) || n == 133 || n == 160 || n == 5760 ||
    (8192 ≤ n && n ≤ 8202) || n == 8232 || n == 8233 || n == 8239 || n == 8287 || n == 12288

def dropBlanks (cs : List Char) : List Char :=
  cs.dropWhile isBlank

def dropEndBlanks (cs : List Char) : List Char :=
  (dropBlanks cs.reverse).reverse

def trimEnd (s : String) : String :=
  String.ofList (dropEndBlanks s.toList)

def trim (s : String) : String :=
  String.ofList (dropEndBlanks (dropBlanks s.toList))

def find? (piece : List Char) : List Char → Option Nat
  | [] => if piece.isEmpty then some 0 else none
  | c :: rest => if piece.isPrefixOf (c :: rest) then some 0 else (find? piece rest).map (· + 1)

/-- Replaces the occurrences of `piece` from left to right; the first argument counts the
characters that still belong to the last occurrence. -/
def replaceFrom (piece new : List Char) : Nat → List Char → List Char
  | _, [] => []
  | k + 1, _ :: rest => replaceFrom piece new k rest
  | 0, c :: rest =>
    if piece.isPrefixOf (c :: rest) then new ++ replaceFrom piece new (piece.length - 1) rest
    else c :: replaceFrom piece new 0 rest

def replace (piece new s : String) : String :=
  if piece.isEmpty then s else String.ofList (replaceFrom piece.toList new.toList 0 s.toList)

def contains (piece s : String) : Bool :=
  (find? piece.toList s.toList).isSome

def startsWith (piece s : String) : Bool :=
  piece.toList.isPrefixOf s.toList

def endsWith (piece s : String) : Bool :=
  piece.toList.isSuffixOf s.toList

def slice (i j : Nat) (s : String) : String :=
  String.ofList ((s.toList.take j).drop i)

def dropFirst (n : Nat) (s : String) : String :=
  String.ofList (s.toList.drop n)

def dropLast (n : Nat) (s : String) : String :=
  String.ofList (s.toList.take (s.length - n))

def sorted (texts : List String) : List String :=
  texts.mergeSort (· ≤ ·)

def hexDigits (n : Nat) : String :=
  String.ofList (Nat.toDigits 16 n)

def hex (n : Int) : String :=
  (if n < 0 then "-0x" else "0x") ++ hexDigits n.natAbs

def digitValue? (c : Char) : Option Nat :=
  if '0' ≤ c && c ≤ '9' then some (c.toNat - 48)
  else if 'a' ≤ c && c ≤ 'f' then some (c.toNat - 87)
  else if 'A' ≤ c && c ≤ 'F' then some (c.toNat - 55)
  else none

/-- Value of a run of digits in which single underscores may divide the digits. -/
def digitsValue? (base : Nat) (value : Nat) : List Char → Option Nat
  | [] => some value
  | '_' :: c :: rest =>
    match digitValue? c with
    | some d => if d < base then digitsValue? base (value * base + d) rest else none
    | none => none
  | c :: rest =>
    match digitValue? c with
    | some d => if d < base then digitsValue? base (value * base + d) rest else none
    | none => none

def natural? (base : Nat) : List Char → Option Nat
  | [] => none
  | '_' :: _ => none
  | cs => digitsValue? base 0 cs

def integer? (s : String) : Option Int :=
  match (trim s).toList with
  | '-' :: cs => (natural? 10 cs).map fun n => -(n : Int)
  | '+' :: cs => (natural? 10 cs).map fun n => (n : Int)
  | cs => (natural? 10 cs).map fun n => (n : Int)

end Confidential.Text
