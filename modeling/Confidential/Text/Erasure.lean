import Confidential.Text.Search
import Confidential.Text.Word

/-!
Solidity text from annotated text: owners and labels are taken out, the caller is written in full, and
reveals stand for their values.
-/

namespace Confidential.Text

variable (s : String)

def settle (step? : String → Option String) : Nat → String → String
  | 0, s => s
  | fuel + 1, s =>
    match step? s with
    | some t => settle step? fuel t
    | none => s

/-- The name of the first owner: what stands between an `@` and the next blank or closing bracket. -/
def ownerIn? : List Char → Option (List Char)
  | [] => none
  | '@' :: rest =>
    if rest.any fun c => isBlank c || c = ')' then
      some (rest.takeWhile fun c => !(isBlank c || c = ')'))
    else none
  | _ :: rest => ownerIn? rest

def eraseOwner? : Option String :=
  (ownerIn? s.toList).map fun owner =>
    let owner := String.ofList owner
    replace ("!" ++ owner) "" (replace ("@" ++ owner) "" s)

def eraseOwners : String :=
  settle eraseOwner? (s.length + 1) s

def isSmallLetter (c : Char) : Bool :=
  'a' ≤ c && c ≤ 'z'

/-- The first `me` that is no part of a word in small letters, with the character on each side of it. -/
def callerIn? : List Char → Option (Char × Option Char)
  | [] => none
  | c :: rest =>
    match rest with
    | 'm' :: 'e' :: [] => if isSmallLetter c then callerIn? rest else some (c,none)
    | 'm' :: 'e' :: d :: _ =>
      if isSmallLetter c || isSmallLetter d then callerIn? rest else some (c,some d)
    | _ => callerIn? rest

def writeCaller? : Option String :=
  (callerIn? s.toList).map fun (before,after) =>
    let before := String.singleton before
    let after := (after.map String.singleton).getD ""
    replace (before ++ "me" ++ after) (before ++ "msg.sender" ++ after) s

def writeCallers : String :=
  if s == "me" then "msg.sender" else settle writeCaller? (s.length + 1) s

/-- The end of a reveal behind the comma: at most one blank, a word, and a closing bracket. -/
def ownerEnd? (cs : List Char) : Option Nat :=
  let blank := match cs with
    | c :: _ => if isBlank c then 1 else 0
    | [] => 0
  let word := ((cs.drop blank).takeWhile isWordChar).length
  if (cs.drop (blank + word)).head? = some ')' then some (blank + word + 1) else none

/-- The last place on the line where the value of a reveal can end, as the lengths of the value
and of the whole text up to the closing bracket. -/
def valueEnd? : List Char → Option (Nat × Nat)
  | [] => none
  | '\n' :: _ => none
  | c :: rest =>
    match valueEnd? rest with
    | some (value,whole) => some (value + 1,whole + 1)
    | none =>
      if c = ',' then (ownerEnd? rest).map fun n => (0,n + 1) else none

def revealIn? : List Char → Option (String × String)
  | [] => none
  | c :: rest =>
    let opening := "reveal(".toList
    if opening.isPrefixOf (c :: rest) then
      let inner := (c :: rest).drop opening.length
      match valueEnd? inner with
      | some (value,whole) =>
        some (String.ofList (opening ++ inner.take whole),String.ofList (inner.take value))
      | none => revealIn? rest
    else revealIn? rest

def eraseReveal? : Option String :=
  (revealIn? s.toList).map fun (whole,value) => replace whole value s

def eraseReveals : String :=
  settle eraseReveal? (s.length + 1) s

def eraseAnnotations : String :=
  replace "    final " "    " (eraseReveals (writeCallers (eraseOwners s)))

end Confidential.Text
