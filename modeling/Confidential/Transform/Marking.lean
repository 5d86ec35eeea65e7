import Confidential.Effects

/-!
Which functions deal with private states: those that assign from or to one, and those that call such
a function.
-/

namespace Confidential

abbrev Calls : Type :=
  List (String × String)

namespace Marking

def markCallers (names : List String) (calls : Calls) (callee : String) (marked : List String) :
    List String :=
  names.foldl (fun m f => if (f,callee) ∈ calls ∧ f ∉ m then m ++ [f] else m) marked

def round (names : List String) (calls : Calls) (marked : List String) : List String :=
  names.foldl (fun m g => if g ∈ m then markCallers names calls g m else m) marked

def rounds (names : List String) (calls : Calls) : Nat → List String → List String
  | 0, marked => marked
  | fuel + 1, marked =>
    let next := round names calls marked
    if next.length = marked.length then next else rounds names calls fuel next

/-- Marks all functions that reach a marked one through calls. -/
def close (names : List String) (calls : Calls) (marked : List String) : List String :=
  rounds names calls (names.length + 1) marked

structure Found where
  calls : Calls := []
  marked : List String := []

def addName (names : List String) (name : String) : List String :=
  if name ∈ names then names else names ++ [name]

def caller (n : Node) : Pass String := do
  Pass.ofOutcome (Program.nameText (← Pass.relatedFunction n))

/-- Walks through a function, for its calls of functions in `names` and its assignments from or to the
states in `secret`. -/
def collect (names secret : List String) (so : Found) (n : Node) : Pass Found := do
  if n.isParameter then return so
  match n with
  | .assign _ _ left right _ =>
    let l ← Pass.ask fun p => p.code left
    let isSecret ← if l ∈ secret then pure true
      else do pure (decide ((← Pass.ask fun p => p.code right) ∈ secret))
    if isSecret then return { so with marked := addName so.marked (← caller n) }
    return so
  | n =>
    if n.lacksParameters then throw .misused
    let so ← n.children.attach.foldlM (fun so ⟨c,_⟩ => collect names secret so c) so
    match n with
    | .call _ callee _ _ =>
      if !callee.isLocation then return so
      let target ← Pass.ask fun p => p.target callee
      let name ← Pass.ofOutcome (Program.nameText target)
      if name ∈ names then return { so with calls := so.calls ++ [(← caller n,name)] }
      return so
    | _ => return so
termination_by sizeOf n
decreasing_by exact Node.sizeOf_lt_child (by assumption)

def secretStates (p : Program) : List String :=
  p.tree.preorder.filterMap fun n =>
    match n with
    | .stateVariable _ type _ (.identifier _ name) _ _ =>
      if Program.isPrivateType type then some name else none
    | _ => none

def related : Pass (List String) := do
  let p ← get
  let names := (p.routines.filterMap fun f => (Program.nameText f).toOption).foldl addName []
  let found ← p.routines.foldlM (collect names (secretStates p)) {}
  return close names found.calls found.marked

end Marking
end Confidential
