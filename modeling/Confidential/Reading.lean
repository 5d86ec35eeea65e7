import Confidential.Elaboration
import Confidential.Surface.Declarations

/-!
Source texts as abstract syntax, and the leaves of a syntax tree written again from left to right.
-/

namespace Confidential

structure Emitter where
  /-- The tokens of the text, the hidden ones included, if they are known. -/
  stream : Option (List Token)
  /-- Number of the first token of the stream that has not been passed. Without a stream it only tells whether
  a leaf has been visited. -/
  next : Nat := 0
  emitted : String := ""

namespace Emitter

/-- What is written before the token of the given number: the hidden tokens that have not been passed. -/
def hiddenUpTo (e : Emitter) (index : Nat) : String × Emitter :=
  match e.stream with
  | none => if e.next == 0 then ("",{ e with next := 1 }) else (" ",e)
  | some ts =>
    let passed := (ts.drop e.next).take (index + 1 - e.next)
    (Token.source (passed.filter Token.isHidden),{ e with next := max e.next (index + 1) })

/-- A leaf is a token with its number. The end of a text has no text. -/
def visit (e : Emitter) (leaf : Token × Nat) : Emitter :=
  let (hidden,e) := e.hiddenUpTo leaf.2
  let code := if leaf.1.kind == .finish then "" else leaf.1.text
  { e with emitted := e.emitted ++ (hidden ++ code) }

def emit (e : Emitter) (leaves : List (Token × Nat)) : String :=
  (leaves.foldl visit e).emitted

end Emitter

namespace Source

def unexpected (t : Token) (text : String) : Outcome Fault := do
  return .malformed (← Report.location t.pos.line t.pos.column (Text.lines text) none none none)

def parse (text : String) : Outcome Surface.Source :=
  match Surface.Source.parse text with
  | .ok source => .ok source
  | .error t => do .error (← unexpected t text)

def unit (text : String) : Outcome Node := do
  (← parse text).toNode ⟨Text.lines text,text.toList⟩

/-- Reads one piece of syntax: a type, an expression, a statement or a part of a contract. -/
def piece (text : String) : Outcome Node := do
  let marked := "SOL " ++ text
  match ← (← parse marked).toNode ⟨Text.lines text,marked.toList⟩ with
  | .source _ _ _ single => return single
  | _ => .error .violated

/-- The leaves of the tree that a text is read as: the tokens that it takes, and the end. -/
def leaves (text : String) : Outcome (List (Token × Nat)) :=
  match Surface.Source.read text with
  | .ok (source,n) =>
    let shown := Token.shown (Token.ofSource text)
    let last := (shown.drop n).take 1
    .ok (shown.take n ++ last ++ if source.isUnit then [] else last)
  | .error t => do .error (← unexpected t text)

/-- The leaves with single spaces between them. -/
def normalized (text : String) : Outcome String := do
  return ({ stream := none : Emitter }).emit (← leaves text)

def emitted (text : String) : Outcome String := do
  return ({ stream := some (Token.ofSource text) : Emitter }).emit (← leaves text)

end Source
end Confidential
