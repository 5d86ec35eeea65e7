import Confidential.Text.Search

/-!
The shortest decimal text that reads back as the same floating point number, and how it is laid out.
Floating point numbers from their decimal texts.
-/

namespace Confidential.Decimal

/-- A positive number `mantissa * 2 ^ exponent`; `isLowest` marks the lowest mantissa of a binade,
below which the neighbours are closer. -/
structure Binary where
  mantissa : Nat
  exponent : Int
  isLowest : Bool

def Binary.ofBits (bits : UInt64) : Binary :=
  let fraction := (bits &&& 0xFFFFFFFFFFFFF).toNat
  let field := ((bits >>> 52) &&& 0x7FF).toNat
  if field = 0 then ⟨fraction,-1074,false⟩
  else ⟨0x10000000000000 + fraction,(field : Int) - 1075,fraction = 0 && 1 < field⟩

def compare (a : Nat) (k : Int) (b : Nat) (q : Int) : Ordering :=
  Ord.compare (a * Nat.pow 10 k.toNat * Nat.pow 2 (-q).toNat) (b * Nat.pow 2 q.toNat * Nat.pow 10 (-k).toNat)

/-- The greatest `e` with `10 ^ e ≤ b * 2 ^ q`, searched downwards from `e + fuel`. -/
def magnitude (b : Nat) (q : Int) : Nat → Int → Int
  | 0, e => e
  | fuel + 1, e => if compare 1 e b q == .gt then magnitude b q fuel (e - 1) else e

def readsBack (x : Binary) (a : Nat) (k : Int) : Bool :=
  let low := 4 * x.mantissa - (if x.isLowest then 1 else 2)
  let high := 4 * x.mantissa + 2
  let q := x.exponent - 2
  let even := x.mantissa % 2 == 0
  let above := compare a k low q
  let below := compare a k high q
  (above == .gt || even && above == .eq) && (below == .lt || even && below == .eq)

def floorAt (x : Binary) (k : Int) : Nat :=
  x.mantissa * Nat.pow 2 x.exponent.toNat * Nat.pow 10 (-k).toNat /
    (Nat.pow 10 k.toNat * Nat.pow 2 (-x.exponent).toNat)

def nearer (x : Binary) (a : Nat) (k : Int) : Nat :=
  match compare (2 * a + 1) k (2 * x.mantissa) x.exponent with
  | .gt => a
  | .lt => a + 1
  | .eq => if a % 2 == 0 then a else a + 1

def candidate? (x : Binary) (e : Int) (digits : Nat) : Option (Nat × Int) :=
  let k := e + 1 - digits
  let a := floorAt x k
  match readsBack x a k, readsBack x (a + 1) k with
  | true, true => some (nearer x a k,k)
  | true, false => some (a,k)
  | false, true => some (a + 1,k)
  | false, false => none

def shortest (x : Binary) : Nat × Int :=
  let e := magnitude x.mantissa x.exponent 700 330
  ((List.range 17).findSome? fun n => candidate? x e (n + 1)).getD (floorAt x (e - 16),e - 16)

/-- How numbers are laid out: positional within the given powers of ten, and otherwise with an exponent of
at least two digits that carries its sign. -/
structure Layout where
  lowest : Int := -4
  highest : Int := 16

def zeros (n : Nat) : String :=
  String.ofList (List.replicate n '0')

def exponentText (e : Int) : String :=
  let digits := toString e.natAbs
  "e" ++ (if e < 0 then "-" else "+") ++ (if digits.length < 2 then "0" ++ digits else digits)

def layOut (layout : Layout) (digits : Nat) (k : Int) : String :=
  let ds := ((toString digits).toList.reverse.dropWhile (· == '0')).reverse
  let e := k + (toString digits).length - 1
  if layout.lowest ≤ e && e < layout.highest then
    if e < 0 then "0." ++ zeros ((-e).toNat - 1) ++ String.ofList ds
    else
      let whole := e.toNat + 1
      let fraction := ds.drop whole
      String.ofList (ds.take whole) ++ zeros (whole - ds.length) ++ "."
        ++ (if fraction.isEmpty then "0" else String.ofList fraction)
  else
    match ds with
    | [] => "0.0"
    | d :: rest =>
      String.singleton d ++ (if rest.isEmpty then "" else "." ++ String.ofList rest) ++ exponentText e

def text (x : Float) (notANumber infinity : String) (layout : Layout := {}) : String :=
  let bits := x.toBits
  let sign := if bits >>> 63 == 1 then "-" else ""
  if x.isNaN then notANumber
  else if x.isInf then sign ++ infinity
  else if (bits <<< 1) == 0 then sign ++ "0.0"
  else
    let (digits,k) := shortest (.ofBits bits)
    sign ++ layOut layout digits k

def splitAtFirst (p : Char → Bool) (cs : List Char) : List Char × Option (List Char) :=
  let front := cs.takeWhile fun c => !p c
  (front,((cs.drop front.length).tail?))

def digits? (cs : List Char) : Option (Nat × Nat) :=
  if cs.isEmpty then some (0,0)
  else (Text.natural? 10 cs).map fun n => (n,(cs.filter (· ≠ '_')).length)

def exponent? : Option (List Char) → Option Int
  | none => some 0
  | some ('-' :: cs) => (Text.natural? 10 cs).map fun n => -(n : Int)
  | some ('+' :: cs) => (Text.natural? 10 cs).map fun n => (n : Int)
  | some cs => (Text.natural? 10 cs).map fun n => (n : Int)

def unsigned? (cs : List Char) : Option Float := do
  match String.ofList (cs.map Char.toLower) with
  | "inf" | "infinity" => return 1.0 / 0.0
  | "nan" => return 0.0 / 0.0
  | _ =>
    let (number,power) := splitAtFirst (fun c => c = 'e' || c = 'E') cs
    let (whole,fraction) := splitAtFirst (· = '.') number
    let e ← exponent? power
    let (w,wholeDigits) ← digits? whole
    let (f,places) ← digits? (fraction.getD [])
    if wholeDigits + places = 0 then none
    let scale := e - places
    return Float.ofScientific (w * Nat.pow 10 places + f) (scale < 0) scale.natAbs

def read? (s : String) : Option Float :=
  match (Text.trim s).toList with
  | '-' :: cs => (unsigned? cs).map fun x => -x
  | '+' :: cs => unsigned? cs
  | cs => unsigned? cs

end Confidential.Decimal
