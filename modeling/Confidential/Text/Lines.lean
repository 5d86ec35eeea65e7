import Confidential.Text.Search

/-!
Lines of a text, and the margin that they have in common.
-/

namespace Confidential.Text

def isLineBreak (c : Char) : Bool :=
  let n := c.toNat
  (10 ≤ n && n ≤ 13) || (28 ≤ n && n ≤ 30) || n == 133 || n == 8232 || n == 8233

def linesKept : List Char → List (List Char)
  | [] => []
  | '\r' :: '\n' :: rest => ['\r','\n'] :: linesKept rest
  | c :: rest =>
    if isLineBreak c then [c] :: linesKept rest
    else match linesKept rest with
      | [] => [[c]]
      | line :: more => (c :: line) :: more

def lines (s : String) : List String :=
  (linesKept s.toList).map fun l => String.ofList (l.takeWhile fun c => !isLineBreak c)

def indent (margin s : String) : String :=
  String.ofList ((linesKept s.toList).flatMap fun l =>
    if l.all isBlank then l else margin.toList ++ l)

def normalLines : List Char → List Char
  | [] => []
  | '\r' :: '\n' :: rest => '\n' :: normalLines rest
  | c :: rest => (if c = '\r' then '\n' else c) :: normalLines rest

def readBack (text : String) : String :=
  String.ofList (normalLines text.toList)

def pieces : List Char → List (List Char)
  | [] => [[]]
  | c :: rest =>
    if c = '\n' then [] :: pieces rest
    else match pieces rest with
      | [] => [[c]]
      | piece :: more => (c :: piece) :: more

def isMarginChar (c : Char) : Bool :=
  c = ' ' || c = '\t'

def commonStart : List Char → List Char → List Char
  | a :: as, b :: bs => if a = b then a :: commonStart as bs else []
  | _, _ => []

def margin (lines : List (List Char)) : List Char :=
  match (lines.filter fun l => !l.isEmpty).map fun l => l.takeWhile isMarginChar with
  | [] => []
  | m :: more => more.foldl commonStart m

def withoutMargin (s : String) : String :=
  let lines := (pieces s.toList).map fun l => if l.all isMarginChar then [] else l
  String.ofList (['\n'].intercalate (lines.map fun l => l.drop (margin lines).length))

def markLines (mark s : String) : String :=
  String.ofList (['\n'].intercalate ((pieces s.toList).map fun l => mark.toList ++ l))

def codeLines (s : String) : Nat :=
  ((pieces s.toList).filter fun l => !(['/','/'].isPrefixOf l)).length

end Confidential.Text
