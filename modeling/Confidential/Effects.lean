import Confidential.Scope.Resolution

/-!
Which values are read and which are modified below every node.
-/

namespace Confidential

namespace Node

def isStorage : Node → Bool
  | .declaration _ .variable _ _ _ _ | .declaration _ .parameter _ _ _ _ | .stateVariable .. => true
  | _ => false

def isParameter : Node → Bool
  | .declaration _ .parameter _ _ _ _ => true
  | _ => false

def indexedBase : Node → Node
  | .index _ base _ => base.indexedBase
  | n => n

def isMapping : Node → Bool
  | .mapping .. => true
  | _ => false

def declaredType : Node → Node
  | .declaration _ _ _ (.annotated _ t _ _) _ _ | .stateVariable _ (.annotated _ t _ _) _ _ _ _ => t
  | _ => .omitted

end Node

namespace Program

def accessTarget (p : Program) (a : Access) : Node :=
  p.node a.target

def accessOf (target key via : Node) : Outcome Access :=
  if !target.isStorage then .error .violated
  else if !key.isHashable then .error .misused
  else .ok { target := target.id, key := if key.isOmitted then none else some key.id,
             via := if via.isOmitted then none else some via.id }

def access (p : Program) (n : Node) : Outcome Access := do
  match n with
  | .declaration _ .variable _ _ _ _ => accessOf n .omitted .omitted
  | .name .. => accessOf (← p.target n) .omitted .omitted
  | .member _ base part => accessOf (← p.target base) part .omitted
  | .index _ _ key =>
    match n.indexedBase with
    | .name i label => accessOf (← p.target (.name i label)) key n
    | _ => .error (.compilation
        s!"the leftmost expression of {← p.code n} is not identifier expression")
  | _ => .error .violated

def modifiedBy (p : Program) (n : Node) : Outcome (List Access) :=
  if n.isBare then .error .absent else .ok (p.modified.getD n.id [])

def readBy (p : Program) (n : Node) : Outcome (List Access) :=
  if n.isBare then .error .absent else .ok (p.read.getD n.id [])

end Program

def Access.union (xs ys : List Access) : List Access :=
  ys.foldl (fun xs y => if xs.contains y then xs else xs ++ [y]) xs

namespace Pass

def addModified (n : Node) (accesses : List Access) : Pass Unit :=
  modify fun p => { p with
    modified := p.modified.insert n.id (Access.union (p.modified.getD n.id []) accesses) }

def addRead (n : Node) (accesses : List Access) : Pass Unit :=
  modify fun p => { p with read := p.read.insert n.id (Access.union (p.read.getD n.id []) accesses) }

def clearEffects (n : Node) : Pass Unit := do
  if n.isBare || n.isLeaflet then throw .absent
  modify fun p => { p with modified := p.modified.insert n.id [], read := p.read.insert n.id [] }

def inheritEffects (n part : Node) : Pass Unit := do
  addModified n (← ask fun p => p.modifiedBy part)
  addRead n (← ask fun p => p.readBy part)

/-- Records the assignment to every place of a left side. No place may be named twice. -/
def markAssigned (statement : Node) (left : Node) : Pass Unit := do
  match left with
  | .tuple _ elements => elements.attach.forM fun ⟨e,_⟩ => markAssigned statement e
  | left =>
    let a ← ask fun p => p.access left
    if ((← get).modified.getD statement.id []).contains a then
      refuse .illTyped left
        "Undefined behavior due multiple different assignments to the same target in tuple assignment"
    addModified statement [a]
termination_by sizeOf left

/-- The effects of a tree on its own, without those of called functions. -/
def directEffects (n : Node) : Pass Unit := do
  match n with
  | .declaration _ .parameter _ _ _ _ => return ()
  | .declaration _ .variable _ _ _ _ => addModified n [← ask fun p => p.access n]
  | n =>
    clearEffects n
    if n.lacksParameters then throw .misused
    n.children.attach.forM fun ⟨c,_⟩ => do
      directEffects c
      inheritEffects n c
    match n with
    | .assign _ _ left _ _ => markAssigned n left
    | .name .. | .member .. | .index .. | .slice .. | .general _ .location | .general _ .primary =>
      let p ← get
      if !p.isLeftValue n && (← ofOutcome (p.target n)).isStorage then
        addRead n [← ask fun p => p.access n]
    | _ => return ()
termination_by sizeOf n
decreasing_by exact Node.sizeOf_lt_child (by assumption)

def relatedFunction (n : Node) : Pass Node := do
  let rec go : List Node → Pass Node
    | [] => throw .absent
    | m :: rest =>
      if m.isContract then return .omitted
      else if m.isFunction then return m
      else go rest
  go (n :: (← get).ancestors n)

/-- Keeps the accesses to the state. A called function must not touch mappings. -/
def stateAccesses (call callee : Node) (verb : String) (accesses : List Access) :
    Pass (List Access) := do
  let p ← get
  let ofState := accesses.filter fun a => (p.accessTarget a).isStateVariable
  if ofState.any fun a => (p.accessTarget a).declaredType.isMapping then
    let caller ← relatedFunction call
    let callerName ← ofOutcome (Program.nameText caller)
    if !callee.isFunction then throw .absent
    let calleeName ← ofOutcome (Program.nameText callee)
    throw (.compilation (s!"Don't support *{callerName}* to call another fucntion *{calleeName}*" ++
      s!" that {verb} mapping state variables now"))
  return ofState

def indirectEffects (n : Node) : Pass Bool := do
  if n.isParameter then return false
  let counts := fun (p : Program) =>
    ((p.modified.getD n.id []).length,(p.read.getD n.id []).length)
  if n.isBare then throw .absent
  let start := counts (← get)
  if n.lacksParameters then throw .misused
  let changes ← n.children.attach.mapM fun ⟨c,_⟩ => do
    let changed ← indirectEffects c
    inheritEffects n c
    return changed
  match n with
  | .call _ callee _ _ =>
    if callee.isLocation then
      let f ← ask fun p => p.target callee
      if f.isOmitted then throw .absent
      addRead n (← stateAccesses n f "read" (← ask fun p => p.readBy f))
      addModified n (← stateAccesses n f "mutated" (← ask fun p => p.modifiedBy f))
  | _ => pure ()
  return changes.any id || counts (← get) != start
termination_by sizeOf n
decreasing_by exact Node.sizeOf_lt_child (by assumption)

def effectsRound : Pass Bool := do
  let changes ← (← get).routines.mapM indirectEffects
  return changes.any id

def effectsRounds : Nat → Pass Unit
  | 0 => return ()
  | fuel + 1 => do
    if ← effectsRound then effectsRounds fuel

/-- A bound on the number of rounds: in each but the last some node gets a new access. -/
def roundsBound (p : Program) : Nat :=
  2 * p.next * p.next + 1

def findEffects : Pass Unit := do
  (← get).routines.forM directEffects
  effectsRounds (roundsBound (← get))

end Pass
end Confidential
