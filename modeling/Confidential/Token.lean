/-!
Tokens of the source language: their kinds, their texts and where they start.
-/

namespace Confidential

/-- A place in a source text. Lines and columns count from one, and only a line feed starts
a new line. -/
structure Pos where
  line : Nat
  column : Nat
deriving DecidableEq, Inhabited

namespace Pos

def first : Pos := ⟨1,1⟩

def after (p : Pos) (c : Char) : Pos :=
  if c = '\n' then ⟨p.line + 1,1⟩ else ⟨p.line,p.column + 1⟩

end Pos

inductive Token.Kind where
  | fixed
  | name
  | version
  | truth
  | decimal
  | hexadecimal
  | text
  | hexText
  /-- An elementary type whose name carries its width. -/
  | sizedType
  | reserved
  | hidden
  | invalid
  | finish
deriving DecidableEq, Inhabited

structure Token where
  kind : Token.Kind
  text : String
  pos : Pos
deriving DecidableEq, Inhabited

namespace Token

def isHidden (t : Token) : Bool :=
  t.kind == .hidden

def isFixed (t : Token) (text : String) : Bool :=
  t.kind == .fixed && t.text == text

def visible (ts : List Token) : List Token :=
  ts.filter fun t => !t.isHidden

/-- The visible tokens with their numbers among all tokens. -/
def shown (ts : List Token) : List (Token × Nat) :=
  ts.zipIdx.filter fun t => !t.1.isHidden

def source (ts : List Token) : String :=
  String.join (ts.map (·.text))

end Token
end Confidential
