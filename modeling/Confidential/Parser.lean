import Confidential.Surface

/-!
Reading from a list of tokens with ordered choice. Besides its result a reading remembers how far
any attempt came: the smallest number of tokens that were left when something else was expected.
The token found there is the first one that no reading of the text can pass.
-/

namespace Confidential

/-- How far reading came: the smallest number of tokens that were left when something else was
expected. -/
structure Reach where
  /-- Some pieces are read as a whole, and count from their first token. -/
  outer : Nat
  inner : Nat

namespace Reach

def start (n : Nat) : Reach :=
  ⟨n + 1,n + 1⟩

def stop (reach : Reach) (n : Nat) : Reach :=
  ⟨min reach.outer n,min reach.inner n⟩

end Reach

def Parser (α : Type) : Type :=
  List Token → Reach → Option (α × List Token) × Reach

namespace Parser

variable {α β : Type} (p : Parser α)

instance : Monad Parser where
  pure a := fun ts reach => (some (a,ts),reach)
  bind p f := fun ts reach =>
    match p ts reach with
    | (none,reach) => (none,reach)
    | (some (a,ts),reach) => f a ts reach

def fail : Parser α :=
  fun ts reach => (none,reach.stop ts.length)

def tokenAt (ts : List Token) (n : Nat) : Token :=
  (ts[ts.length - n]?).getD default

/-- Reads as a whole: what goes wrong inside counts as if it went wrong at the first token, unless a
character is found that starts no token. -/
def whole : Parser α :=
  fun ts reach =>
    match p ts { reach with inner := ts.length + 1 } with
    | (none,inside) =>
      let stop := if (tokenAt ts inside.inner).kind == .invalid then inside.inner else ts.length
      (none,⟨min reach.outer stop,min reach.inner inside.inner⟩)
    | (done,inside) => (done,{ inside with inner := min reach.inner inside.inner })

/-- Reads token by token: no piece inside counts as a whole. -/
def closely : Parser α :=
  fun ts reach =>
    let (result,inside) := p ts { reach with inner := ts.length + 1 }
    (result,⟨min inside.outer inside.inner,min reach.inner inside.inner⟩)

/-- The second reading counts only if the first one fails. -/
def orElse (q : Unit → Parser α) : Parser α :=
  fun ts reach =>
    match p ts reach with
    | (none,reach) => q () ts reach
    | done => done

instance : OrElse (Parser α) where
  orElse := orElse

def peek : Parser Token :=
  fun ts reach =>
    match ts with
    | [] => (none,reach.stop 0)
    | t :: _ => (some (t,ts),reach)

def remaining : Parser Nat :=
  fun ts reach => (some (ts.length,ts),reach)

def ahead (test : List Token → Bool) : Parser Bool :=
  fun ts reach => (some (test ts,ts),reach)

def satisfy (test : Token → Bool) : Parser Token :=
  fun ts reach =>
    match ts with
    | [] => (none,reach.stop 0)
    | t :: rest => if test t then (some (t,rest),reach) else (none,reach.stop ts.length)

def word (t : Token) : Surface.Word :=
  ⟨t.pos,t.text⟩

def fixed (text : String) : Parser Surface.Word := do
  return word (← satisfy (·.isFixed text))

def oneOf (texts : List String) : Parser Surface.Word := do
  return word (← satisfy fun t => texts.any t.isFixed)

def kind (k : Token.Kind) : Parser Surface.Word := do
  return word (← satisfy (·.kind == k))

def name : Parser Surface.Word :=
  kind .name

def here : Parser Pos := do
  return (← peek).pos

def nextIs (text : String) : Parser Bool := do
  return (← peek).isFixed text

def optional : Parser (Option α) :=
  (do return some (← p)) <|> pure none

def repeated (p : Parser α) : Nat → Parser (List α)
  | 0 => pure []
  | n + 1 => (do
      let a ← p
      let more ← repeated p n
      return a :: more) <|> pure []

def many : Parser (List α) := do
  repeated p (← remaining)

def many1 : Parser (List α) := do
  let a ← p
  return a :: (← many p)

def separated (divider : String) : Parser (List α) := do
  let a ← p
  return a :: (← many (do let _ ← fixed divider; p))

def commaList (closing : String) : Parser (List α) := do
  if ← nextIs closing then return [] else separated p ","

def finish : Parser Unit := do
  if (← peek).kind == .finish then return () else fail

/-- What is read, and from how many tokens. -/
def read (ts : List Token) : Except Token (α × Nat) :=
  match p ts (.start ts.length) with
  | (some (a,rest),_) => .ok (a,ts.length - rest.length)
  | (none,reach) => .error (tokenAt ts reach.outer)

def run (ts : List Token) : Except Token α :=
  Prod.fst <$> p.read ts

theorem read_eq_ok_iff {p : Parser α} {ts : List Token} {a : α} {n : Nat} : p.read ts = .ok (a,n) ↔
    ∃ rest reach, p ts (.start ts.length) = (some (a,rest),reach) ∧ n = ts.length - rest.length := by
  unfold read
  split
  next b rest reach eq =>
    simp only [Except.ok.injEq,Prod.mk.injEq,eq,Option.some.injEq]
    grind
  next reach eq => simp [eq]

theorem run_eq_ok_iff {p : Parser α} {ts : List Token} {a : α} :
    p.run ts = .ok a ↔ ∃ rest reach, p ts (.start ts.length) = (some (a,rest),reach) := by
  unfold run read
  split
  next b rest reach eq =>
    simp only [Functor.map,Except.map,Except.ok.injEq,Prod.mk.injEq,eq,Option.some.injEq]
    grind
  next reach eq => simp [eq,Functor.map,Except.map]

end Parser
end Confidential
