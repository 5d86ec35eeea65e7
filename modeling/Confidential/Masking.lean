import Confidential.Masking.Brackets
import Confidential.Masking.Features
import Confidential.SolcVersion

/-!
Solidity text that keeps the places of the annotated text: what goes is replaced by blanks of the
same length, and line breaks stay where they are.
-/

namespace Confidential.Masking

def blanked (cs : List Char) : List Char :=
  cs.map fun c => if c = '\n' then '\n' else ' '

def first? (feature : Feature) : Option Char → List Char → Option (Nat × Span)
  | _, [] => none
  | before, c :: rest =>
    match feature before (c :: rest) with
    | some span => some (0,span)
    | none => (first? feature (some c) rest).map fun (n,span) => (n + 1,span)

def Span.put (span : Span) (fill : List Char → List Char) (start : Nat) (cs : List Char) : List Char :=
  let erased := (cs.drop (start + span.kept)).take span.erased
  cs.take (start + span.kept) ++ fill erased ++ cs.drop (start + span.size)

/-- Replaces a feature in at most `fuel` places. Each search starts one character behind the place
before, and takes that for the start of the text. -/
def replaceEach (feature : Feature) (fill : List Char → List Char) : Nat → List Char → List Char
  | 0, cs => cs
  | fuel + 1, cs =>
    match first? feature none cs with
    | none => cs
    | some (start,span) =>
      let new := span.put fill start cs
      let next := start + span.size + 1
      new.take next ++ replaceEach feature fill fuel (new.drop next)

def replaceAll (feature : Feature) (fill : List Char → List Char) (cs : List Char) : List Char :=
  replaceEach feature fill (cs.length + 1) cs

def erase (feature : Feature) (cs : List Char) : List Char :=
  replaceAll feature blanked cs

/-- Replaces a feature by the text that a template gives. A gap in the template is filled with blanks, so that
the whole is as long as what is erased, if it can be. A feature that is dropped as a whole has
nothing to fill a gap with. -/
def substitute (feature : Feature) (isDropped : Bool) (template s : String) : Outcome String :=
  let cs := s.toList
  let result (fill : List Char → List Char) : Outcome String := .ok (String.ofList (replaceAll feature fill cs))
  match first? feature none cs, template.splitOn "\x7b\x7d", isDropped with
  | none, _, _ => .ok s
  | some _, [text], _ => result fun _ => text.toList
  | some _, _, true => .error .unknownKey
  | some _, [left,right], false =>
    result fun erased =>
      left.toList ++ (blanked erased).drop (left.length + right.length) ++ right.toList
  | some _, _, false => .error .outOfRange

def Feature.dropped (feature : Feature) : Feature := fun before cs =>
  (feature before cs).map fun span => { dropped := span.size }

/-- Every place where the search succeeds, from left to right and without overlap, as the start and
the number of characters. `skip` characters still belong to the place before. -/
def places (size? : Option Char → List Char → Option Nat) :
    Nat → Nat → Option Char → List Char → List (Nat × Nat)
  | _, _, _, [] => []
  | i, skip + 1, _, c :: rest => places size? (i + 1) skip (some c) rest
  | i, 0, before, c :: rest =>
    match size? before (c :: rest) with
    | some n => (i,n) :: places size? (i + 1) (n - 1) (some c) rest
    | none => places size? (i + 1) 0 (some c) rest

/-! ### Reveals -/

def revealSize? (before : Option Char) (cs : List Char) : Option Nat :=
  let first := "reveal".toList
  let n := first.length + spaces (cs.drop first.length)
  if first.isPrefixOf cs && !before.any Text.isWordChar && (cs.drop n).head? = some '(' then some n else none

def revealStart : Feature := fun before cs =>
  (revealSize? before cs).map fun n => { dropped := n }

def lastComma? (stop : Nat) (cs : List Char) : Option Nat :=
  ((cs.take stop).reverse.findIdx? (· = ',')).map fun k => (cs.take stop).length - 1 - k

def between (i j : Nat) (cs : List Char) : List Char :=
  (cs.take j).drop i

/-- Blanks out the word of a reveal, which ends at the bracket at `opening`, and the owner with the
comma in front of it. Without any comma the value goes up to the last character of the text. -/
def eraseReveal (cs : List Char) (start opening : Nat) : Outcome (List Char) := do
  let stop := (← partner cs opening).toNat
  let front := cs.take start ++ blanked (between start opening cs)
  let (value,owner) := match lastComma? stop cs with
    | some comma => (between opening comma cs,between comma stop cs)
    | none => (between opening (cs.length - 1) cs,between (cs.length - 1) stop cs)
  return front ++ value ++ blanked owner ++ cs.drop stop

/-- Blanks out all reveals but for their values. The reveals are those of the text at the start. -/
def eraseReveals (cs : List Char) : Outcome (List Char) :=
  (places revealSize? 0 0 none cs).foldlM (fun so (start,n) => eraseReveal so start (start + n)) cs

/-! ### Contracts -/

def contractSize? (cs : List Char) : Option Nat := do
  let first := "contract".toList
  let n := first.length + spaces (cs.drop first.length)
  let name ← nameLength? (cs.drop n)
  let size := n + name + spaces (cs.drop (n + name))
  if first.isPrefixOf cs && (cs.drop size).head? = some '\x7b' then some size else none

def contractHead : Feature :=
  Feature.outsideNames fun cs => (contractSize? cs).map fun n => { dropped := n }

def contractNames (s : String) : List String :=
  let cs := s.toList
  (places (fun _ cs => (contractSize? cs).map (· + 1)) 0 0 none cs).map fun (i,_) =>
    let rest := cs.drop (i + "contract".length)
    let rest := rest.drop (spaces rest)
    String.ofList (rest.takeWhile isNameChar)

def callerDeclaration : String :=
  " address private me = msg.sender;"

def joinAt (glue : List Char) (cuts : List Nat) (cs : List Char) : List Char :=
  glue.intercalate (((0 :: cuts).zip (cuts ++ [cs.length])).map fun (i,j) => between i j cs)

def declareCallers (cs : List Char) : Outcome (List Char) := do
  let heads := places (fun before cs => (contractHead before cs).map Span.size) 0 0 none cs
  let ends ← heads.mapM fun (start,n) => partner cs ↑(start + n)
  return joinAt callerDeclaration.toList (ends.map Int.toNat) cs

/-! ### The whole text -/

def solidity (s : String) : Outcome String := do
  let line := ("solidity " ++ SolcVersion.supported ++ ";").toList
  let cs := replaceAll version (fun _ => line) (erase commentOrString s.toList)
  let cs := erase label (erase ownedType (erase (word "final") cs))
  return String.ofList (← declareCallers (← eraseReveals cs))

end Confidential.Masking
