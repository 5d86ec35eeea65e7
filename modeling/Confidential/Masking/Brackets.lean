import Confidential.Fault

/-!
The partner of an opening bracket. A bracket of another kind in between counts for nothing, so the
partner in `({)}` is the third character.
-/

namespace Confidential.Masking

inductive Bracket where
  | round
  | curly
  | square
deriving DecidableEq

namespace Bracket

def opening : Bracket → Char
  | round => '('
  | curly => '\x7b'
  | square => '['

def closing : Bracket → Char
  | round => ')'
  | curly => '\x7d'
  | square => ']'

def ofOpening? (c : Char) : Option Bracket :=
  [round,curly,square].find? fun b => b.opening = c

end Bracket

def closingDistance? (b : Bracket) : Nat → List Char → Option Nat
  | _, [] => none
  | depth, c :: rest =>
    if c = b.closing then
      if depth ≤ 1 then some 0 else (closingDistance? b (depth - 1) rest).map (· + 1)
    else if c = b.opening then (closingDistance? b (depth + 1) rest).map (· + 1)
    else (closingDistance? b depth rest).map (· + 1)

/-- Square brackets are searched for as the pair `[]`. What is found is an opening bracket each time. -/
def pairDistance? : Nat → List Char → Option Nat
  | _, [] => none
  | depth, c :: rest =>
    if c = '[' && rest.head? = some ']' then
      if depth + 1 = 0 then some 0 else (pairDistance? (depth + 1) rest).map (· + 1)
    else (pairDistance? depth rest).map (· + 1)

def closing? (b : Bracket) : Nat → List Char → Option Nat :=
  match b with
  | .square => pairDistance?
  | b => closingDistance? b

def depthBehind (b : Bracket) (depth : Nat) (cs : List Char) : Nat :=
  depth + cs.count b.opening - cs.count b.closing

def partnerAt (b : Bracket) (i : Nat) (cs : List Char) : Outcome Nat :=
  match closing? b 1 (cs.drop (i + 1)) with
  | some n => .ok (i + 1 + n)
  | none => .error .absent

/-- The partner of the bracket that is the `k`-th character counted from the end, `k = 1` being the
last one. Positions go on being counted from the end. If the text ends with a bracket of the same
kind, or if `k = 1`, the search goes on at the start of the text. -/
def partnerFromEnd (b : Bracket) (k : Nat) (cs : List Char) : Outcome Int :=
  let rest := cs.drop (cs.length - k + 1)
  match closing? b 1 rest with
  | some n => .ok ((n : Int) + 1 - k)
  | none =>
    let goesOn := match rest.getLast? with
      | some c => c = b.opening || c = b.closing
      | none => true
    match goesOn, closing? b (depthBehind b 1 rest) cs with
    | true, some n => .ok n
    | _, _ => .error .absent

def partner (cs : List Char) (i : Int) : Outcome Int :=
  let place := if i < 0 then cs.length + i else i
  if place < 0 then .error .outOfRange
  else match cs[place.toNat]? with
    | none => .error .outOfRange
    | some c =>
      match Bracket.ofOpening? c with
      | none => .error (.badValue (some "Unsupported parenthesis type"))
      | some b =>
        if i < 0 then partnerFromEnd b (-i).toNat cs
        else (partnerAt b i.toNat cs).map Int.ofNat

end Confidential.Masking
