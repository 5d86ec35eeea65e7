import Confidential.Reading
import Confidential.Scope.Tables

/-!
What the names in a program refer to.
-/

namespace Confidential

namespace Node

def isForLoop : Node → Bool
  | .forLoop .. => true
  | _ => false

def isVariable : Node → Bool
  | .declaration _ .variable _ _ _ _ => true
  | _ => false

def isVariableStatement : Node → Bool
  | .variableStatement .. => true
  | _ => false

def steps : Node → List Node
  | .forLoop _ start condition update body => [start,condition,body,update]
  | .statements _ _ body => body
  | _ => []

def isHashable (n : Node) : Bool :=
  !n.isTypeName && !(n matches .annotated ..)

end Node

namespace Program

def isInside (p : Program) (outer n : Node) : Bool :=
  n.id = outer.id || (p.ancestors n).any fun m => m.id = outer.id

/-- The first node of `around` that declares `name`, with the declaration. -/
def nextDeclaration (p : Program) (n : Node) (name : String) :
    List Node → Outcome (Option (Node × List Node × Node))
  | [] => .ok none
  | outer :: rest => do
    match (← p.names outer).lookup name with
    | none => p.nextDeclaration n name rest
    | some k =>
      let decl ← match p.links.parents[k]? with
        | some j => pure (p.node j)
        | none => .error .absent
      match p.parent? decl with
      | some s =>
        if s.isVariableStatement && p.isInside s n then p.nextDeclaration n name rest
        else return some (outer,rest,decl)
      | none => return some (outer,rest,decl)

def stepOf (p : Program) (outer n : Node) : Outcome Nat := do
  let path := n :: p.ancestors n
  match (path.takeWhile fun m => m.id ≠ outer.id).getLast? with
  | none => .error .violated
  | some anchor =>
    match outer.steps.findIdx? fun m => m.id = anchor.id && !m.isLeaflet with
    | some i => return i
    | none => .error (.badValue none)

def isBeforeDeclaration (p : Program) (outer n decl : Node) : Outcome Bool := do
  let inner := (p.ancestors n).takeWhile fun m => m.id ≠ outer.id
  if inner.any fun m => !m.isHashable then .error .misused
  -- The closest node around both of them has to be a list of statements.
  match (p.ancestors decl).find? fun m => m.id = outer.id || inner.any fun k => k.id = m.id with
  | none => .error .violated
  | some common =>
    if !(common.isForLoop || common matches .statements ..) then .error .violated
    return decide ((← p.stepOf common n) ≤ (← p.stepOf common decl))

def inScope (p : Program) (name n : Node) : Outcome Bool :=
  (p.ancestors n).foldlM (fun so outer => do
    if so then return true
    return (← p.names outer).any fun entry => entry.2 = name.id) false

/-- The declaration behind `name`, looked up at `n` from the inside out in `around`. -/
def declarationIn (p : Program) (name : String) : Nat → Node → List Node → Outcome (Option Node)
  | 0, _, _ => .ok none
  | fuel + 1, n, around => do
    match ← p.nextDeclaration n name around with
    | none => return none
    | some (outer,rest,decl) =>
      if (outer.isForLoop || outer.isBlock) && decl.isVariable then
        if ← p.isBeforeDeclaration outer n decl then p.declarationIn name fuel outer rest
        else return some decl
      else return some decl

end Program

namespace Pass

def setTarget (n : Node) (k : Nat) : Pass Unit :=
  modify fun p => { p with links := { p.links with targets := p.links.targets.insert n.id k } }

def findDeclaration (n : Node) (name : String) : Pass Node := do
  let p ← get
  let around := p.ancestors n
  match ← ofOutcome (p.declarationIn name (around.length + 1) n around) with
  | some decl => return decl
  | none => do
    -- The message is placed where the search has ended.
    let last := lastSearched p name (around.length + 1) n around
    refuse .unknownName last s!"Undefined identifier {name}"
where
  /-- The node from which the last search for `name` has started. -/
  lastSearched (p : Program) (name : String) : Nat → Node → List Node → Node
    | 0, n, _ => n
    | fuel + 1, n, around =>
      match p.nextDeclaration n name around with
      | .ok (some (outer,rest,_)) => lastSearched p name fuel outer rest
      | _ => n

def memberOf (definition : Node) (name : String) : Pass Nat := do
  match (← ask fun p => p.names definition).lookup name with
  | none => throw .unknownKey
  | some k =>
    match (← get).links.parents[k]? with
    | some j => return j
    | none => return 0

def typeTarget? (n : Node) (path : List Node) : Pass (Option Nat) := do
  match path with
  | [] => throw .outOfRange
  | first :: more =>
    let name ← ofOutcome (match first.identifierText? with
      | some t => .ok t
      | none => .error .absent)
    let p ← get
    match ← ofOutcome (p.nextDeclaration n name (p.ancestors n)) with
    | none => return none
    | some (_,_,decl) =>
      let k ← more.foldlM (fun (k : Nat) part => do
        let name ← ofOutcome (match part.identifierText? with
          | some t => .ok t
          | none => .error .absent)
        if k = 0 then throw .absent
        memberOf ((← get).node k) name) decl.id
      return some k

def arrayFunction (name : String) (type : Node) : Outcome Node :=
  match type with
  | .arrayType _ value _ | .mapping _ _ _ value =>
    let unnamed := Globals.parameter (Program.publicType value) ""
    if name == "push" then .ok (Globals.function name [unnamed] [] [] [])
    else if name == "pop" then .ok (Globals.function name [] [] [unnamed] [])
    else .error (.compilation s!"unsupported array functin: {name}")
  | _ => .error .absent

def typeNameOf (n : Node) : Pass Node := do
  match ← ask fun p => p.typeOf n with
  | .annotated _ t _ _ => return t
  | _ => throw .absent

def linkMemberOfType (n type : Node) (name : String) : Pass Unit := do
  match type with
  | .arrayType .. =>
    if name == "length" then setTarget n (← get).arrayLength
    else if name == "push" || name == "pop" then
      let f ← register (← ofOutcome (arrayFunction name type))
      setTarget n f.id
    else throw .violated
  | .userType .. =>
    let known ← ask fun p => p.target type
    let definition ← if !known.isOmitted then pure (some known.id)
      else do
        -- The type is read again at the place of the member.
        match ← ofOutcome (do Source.piece (← type.code {})) with
        | .userType i kind path =>
          let t ← register (.userType i kind path)
          modify fun p => { p with links := { p.links with parents := p.links.parents.insert t.id n.id } }
          typeTarget? t t.parts
        | _ => throw .absent
    match definition with
    | some k => setTarget n (← memberOf ((← get).node k) name)
    | none => return ()
  | _ => throw .violated

def linkOne (n : Node) : Pass Unit := do
  match n with
  | .name _ (.identifier _ name) =>
    if name == "_" then return ()
    setTarget n (← findDeclaration n name).id
  | .userType _ _ path =>
    match ← typeTarget? n path with
    | some k => setTarget n k
    | none => return ()
  | .member _ base part =>
    let name ← ofOutcome (match part.identifierText? with
      | some t => .ok t
      | none => .error .absent)
    let target ← ask fun p => p.target base
    if target.isNamespace then setTarget n (← memberOf target name)
    else linkMemberOfType n (← typeNameOf target) name
  | .index _ base _ =>
    let own ← ask fun p => p.typeOf base
    let type ← match own with
      | .annotated _ t _ _ => pure t
      | _ => do typeNameOf (← ask fun p => p.target base)
    let element ← match type with
      | .arrayType _ value _ =>
        if !value.isTypeName then throw .absent
        pure (if own.isOmitted then Program.publicType value else .annotated {} value true own)
      | .mapping _ _ _ value => pure value
      | _ => throw .absent
    let target ← register (.declaration {} .variable [] element (.identifier {} "") none)
    setTarget n target.id
  | _ => return ()

def linkNames (n : Node) : Pass Unit := do
  if n.lacksParameters then throw .misused
  n.children.attach.forM fun ⟨c,_⟩ => linkNames c
  linkOne n
termination_by sizeOf n
decreasing_by exact Node.sizeOf_lt_child (by assumption)

def linkAll (n : Node) : Pass Unit := do
  fillNames n
  linkNames n

def load (text : String) : Pass Unit := do
  let n ← ofOutcome (Source.unit text)
  let n ← register n
  modify fun p => { p with root := n.id, lines := Text.lines text }

def loadLinked (text : String) : Pass Unit := do
  load text
  let n := (← get).tree
  linkParents n
  linkAll n

end Pass
end Confidential
