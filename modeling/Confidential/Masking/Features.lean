import Confidential.Text.Search

/-!
Where the language goes beyond Solidity: owners behind types, labels in mappings, the word `final` and the
version line.
-/

namespace Confidential.Masking

/-- A place in a text: the first `kept` characters stay, the next `erased` ones go, and so do
`dropped` more that leave nothing behind. -/
structure Span where
  kept : Nat := 0
  erased : Nat := 0
  dropped : Nat := 0

namespace Span

def size (s : Span) : Nat :=
  s.kept + s.erased + s.dropped

/-- The same place with `n` more characters in front. -/
def behind (n : Nat) (s : Span) : Span :=
  { s with kept := s.kept + n }

end Span

/-- Looks for a place right here, given the character in front (none at the start) and the text that
follows. -/
abbrev Feature := Option Char → List Char → Option Span

def isSpace (c : Char) : Bool :=
  [' ','\t','\r','\n','\x0c'].contains c

def isNameStart (c : Char) : Bool :=
  c.isAlpha || c = '$' || c = '_'

def isNameChar (c : Char) : Bool :=
  c.isAlphanum || c = '$' || c = '_'

def spaces (cs : List Char) : Nat :=
  (cs.takeWhile isSpace).length

def nameLength? : List Char → Option Nat
  | c :: rest => if isNameStart c then some ((rest.takeWhile isNameChar).length + 1) else none
  | [] => none

/-- A place that is not in the middle of a name: at the start of the text or behind a character that
belongs to no name, which is part of the place. -/
def Feature.outsideNames (find : List Char → Option Span) : Feature := fun before cs =>
  let inside := match cs with
    | c :: rest => if isNameChar c then none else (find rest).map (Span.behind 1)
    | [] => none
  inside <|> if before.isNone then find cs else none

/-! ### Comments and strings -/

def contentLength? (quote : Char) : List Char → Option Nat
  | [] => none
  | '\\' :: _ :: rest => (contentLength? quote rest).map (· + 2)
  | c :: rest =>
    if c = quote then some 0
    else if ['\r','\n','\\'].contains c then none
    else (contentLength? quote rest).map (· + 1)

def lineCommentLength? : List Char → Option Nat
  | '/' :: '/' :: rest => some ((rest.takeWhile fun c => !(['\r','\n'].contains c)).length + 2)
  | _ => none

def blockCommentLength? : List Char → Option Nat
  | '/' :: '*' :: rest => (Text.find? ['*','/'] rest).map (· + 4)
  | _ => none

def stringLength? (before : Option Char) (cs : List Char) : Option Nat :=
  match before with
  | some '\'' => contentLength? '\'' cs
  | some '"' => contentLength? '"' cs
  | _ => none

def commentOrString : Feature := fun before cs =>
  (lineCommentLength? cs <|> blockCommentLength? cs <|> stringLength? before cs).map fun n =>
    { erased := n }

/-! ### Words -/

def wordAt (word : List Char) (cs : List Char) : Option Span :=
  if word.isPrefixOf cs && !((cs.drop word.length).head?.any isNameChar) then
    some { erased := word.length }
  else none

def word (w : String) : Feature :=
  Feature.outsideNames (wordAt w.toList)

def versionAt (cs : List Char) : Option Span :=
  let first := "pragma".toList
  let rest := (cs.drop first.length).dropWhile Text.isBlank
  let text := rest.takeWhile fun c => c ≠ ';' && c ≠ '\n'
  if first.isPrefixOf cs && "cloak".toList.isPrefixOf rest && (rest.drop text.length).head? = some ';' then
    some { kept := cs.length - rest.length, erased := text.length, dropped := 1 }
  else none

def version : Feature :=
  Feature.outsideNames versionAt

/-! ### Owners and labels -/

def isPath : Bool → List Char → Bool
  | isNew, [] => !isNew
  | isNew, c :: rest =>
    if c = '.' then !isNew && isPath true rest
    else (if isNew then isNameStart c else isNameChar c) && isPath false rest

def typeLengths (cs : List Char) : List Nat :=
  let path := cs.takeWhile fun c => isNameChar c || c = '.'
  let payable := "address payable".toList
  (if isPath true path then [path.length] else []) ++ if payable.isPrefixOf cs then [payable.length] else []

def markLength? (mark : Char) (cs : List Char) : Option Nat :=
  match cs with
  | c :: rest =>
    let n := spaces rest
    if c = mark then (nameLength? (rest.drop n)).map (· + n + 1) else none
  | [] => none

def markedType (mark : Char) (cs : List Char) : Option Span :=
  (typeLengths cs).findSome? fun n =>
    let kept := n + spaces (cs.drop n)
    (markLength? mark (cs.drop kept)).map fun m => { kept := kept, erased := m }

def ownedType : Feature :=
  Feature.outsideNames (markedType '@')

def labelledKey (cs : List Char) : Option Span := do
  let span ← markedType '!' cs
  let rest := cs.drop span.size
  if ['=','>'].isPrefixOf (rest.drop (spaces rest)) then some span else none

def labelAt (cs : List Char) : Option Span :=
  let first := "mapping".toList
  let n := first.length + spaces (cs.drop first.length)
  match first.isPrefixOf cs, cs.drop n with
  | true, '(' :: rest =>
    let m := spaces rest
    (labelledKey (rest.drop m)).map (Span.behind (n + 1 + m))
  | _, _ => none

def label : Feature :=
  Feature.outsideNames labelAt

/-! ### Single characters -/

def oneOf (chars : List Char) : Feature := fun _ cs =>
  match cs with
  | c :: _ => if chars.contains c then some { dropped := 1 } else none
  | [] => none

end Confidential.Masking
