import Confidential.Text.Printable

/-!
Keccak-256 with the padding of the first submission, as Ethereum uses it.
-/

namespace Confidential.Digest

def bytesOf (s : String) : List UInt8 :=
  s.toUTF8.toList

def hex (bytes : List UInt8) : String :=
  String.join (bytes.map fun b => Text.paddedHex 2 b.toNat)

def blocks (size : Nat) (bytes : List UInt8) : List (List UInt8) :=
  (List.range ((bytes.length + size - 1) / size)).map fun k => (bytes.drop (k * size)).take size

end Confidential.Digest

namespace Confidential.Digest.Keccak

abbrev Lanes : Type :=
  Array UInt64

def lane (s : Lanes) (i : Nat) : UInt64 :=
  s.getD i 0

def roundConstants : List UInt64 :=
  [0x1,0x8082,0x800000000000808A,0x8000000080008000,0x808B,0x80000001,0x8000000080008081,
   0x8000000000008009,0x8A,0x88,0x80008009,0x8000000A,0x8000808B,0x800000000000008B,
   0x8000000000008089,0x8000000000008003,0x8000000000008002,0x8000000000000080,0x800A,
   0x800000008000000A,0x8000000080008081,0x8000000000008080,0x80000001,0x8000000080008008]

def offsets : Array UInt64 :=
  #[0,1,62,28,27,36,44,6,55,20,3,10,43,25,39,41,45,15,21,8,18,2,61,56,14]

def rotate (w k : UInt64) : UInt64 :=
  if k = 0 then w else (w <<< k) ||| (w >>> (64 - k))

def ofGrid (f : Nat → Nat → UInt64) : Lanes :=
  ((List.range 25).map fun i => f (i % 5) (i / 5)).toArray

def theta (s : Lanes) : Lanes :=
  let column := ((List.range 5).map fun x =>
    lane s x ^^^ lane s (x + 5) ^^^ lane s (x + 10) ^^^ lane s (x + 15) ^^^ lane s (x + 20)).toArray
  ofGrid fun x y =>
    lane s (x + 5 * y) ^^^ lane column ((x + 4) % 5) ^^^ rotate (lane column ((x + 1) % 5)) 1

def rhoPi (s : Lanes) : Lanes :=
  ofGrid fun x y =>
    let source := (x + 3 * y) % 5 + 5 * x
    rotate (lane s source) (lane offsets source)

def chi (s : Lanes) : Lanes :=
  ofGrid fun x y =>
    lane s (x + 5 * y) ^^^ (~~~ lane s ((x + 1) % 5 + 5 * y) &&& lane s ((x + 2) % 5 + 5 * y))

def round (s : Lanes) (constant : UInt64) : Lanes :=
  let t := chi (rhoPi (theta s))
  t.setIfInBounds 0 (lane t 0 ^^^ constant)

def permute (s : Lanes) : Lanes :=
  roundConstants.foldl round s

/-- Bytes of a block that are taken in between two permutations. -/
def rate : Nat := 136

/-- The message with a one behind it, and a one at the end of the last block. -/
def padded (message : List UInt8) : List UInt8 :=
  let gap := rate - message.length % rate
  if gap = 1 then message ++ [0x81]
  else message ++ [0x01] ++ List.replicate (gap - 2) 0 ++ [0x80]

def word (bytes : List UInt8) : UInt64 :=
  bytes.foldr (fun b w => (w <<< 8) ||| b.toUInt64) 0

def absorb (s : Lanes) (block : List UInt8) : Lanes :=
  let words := (blocks 8 block).map word
  permute ((List.range 25).map fun i => lane s i ^^^ words.getD i 0).toArray

def wordBytes (w : UInt64) : List UInt8 :=
  (List.range 8).map fun k => (w >>> (8 * k).toUInt64).toUInt8

def hash (message : List UInt8) : List UInt8 :=
  let final := (blocks rate (padded message)).foldl absorb (Array.replicate 25 0)
  (List.range 4).flatMap fun i => wordBytes (lane final i)

end Confidential.Digest.Keccak
