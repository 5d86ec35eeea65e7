import Confidential.Digest.Keccak
import Confidential.Policy.Shape
import Confidential.Program.Query
import Confidential.Reading
import Confidential.Text.Erasure

/-!
Privacy policies: the states of a contract with their types and owners, and for every function what
it takes, reads, changes and gives back.
-/

namespace Confidential

inductive Section where
  | inputs
  | read
  | mutate
  | outputs
deriving DecidableEq, Inhabited

namespace Section

def word : Section → String
  | .inputs => "inputs"
  | .read => "read"
  | .mutate => "mutate"
  | .outputs => "outputs"

def ofWord (w : String) : Outcome Section :=
  match [inputs,read,mutate,outputs].find? fun s => s.word == w with
  | some s => .ok s
  | none => .error (.badValue (some s!"'{w}' not support now!"))

end Section

/-- A value in a policy. Entries for states have only a name, and keys if the state is a mapping. -/
structure Entry where
  name : Option String := none
  type : Option String := none
  shape : Option Shape := none
  /-- The type as signatures name it; kept until the signature is made. -/
  concrete : Option String := none
  ownership : Option Ownership := none
  keys : Option (List String) := none
deriving Inhabited, DecidableEq

def Entry.toValue (e : Entry) : Value :=
  .record <|
    (e.name.map fun s => ("name",.text s)).toList ++
    (e.type.map fun s => ("type",.text s)).toList ++
    (e.shape.map fun s => ("structural_type",s.toValue)).toList ++
    (e.concrete.map fun s => ("concrete_type",.text s)).toList ++
    (e.ownership.map fun o => ("owner",o.toValue)).toList ++
    (e.keys.map fun ks => ("keys",Value.ofTexts ks)).toList

structure FunctionPolicy where
  name : String := ""
  privacy : Privacy := .pub
  sections : List (Section × List Entry) := []
  selector : Option String := none
deriving DecidableEq

namespace Node

def declaredName (n : Node) : Outcome Node :=
  match n.ownName? with
  | some label => .ok label
  | none => .error .absent

/-- The type as it is named in signatures: `uint` is short for `uint256`. -/
def concreteType (n : Node) : Node :=
  match n with
  | .elementary i (.uint "uint" bits) => .elementary i (.uint "uint256" bits)
  | n => n.withParts (n.parts.attach.map fun ⟨c,_⟩ => c.concreteType)
termination_by sizeOf n
decreasing_by exact sizeOf_lt_part (by assumption)

end Node

namespace FunctionPolicy

variable (f : FunctionPolicy)

abbrev Change (α : Type) : Type :=
  ExceptT Fault (StateM FunctionPolicy) α

def entries? (s : Section) : Option (List Entry) :=
  f.sections.lookup s

def setEntries (s : Section) (es : List Entry) : FunctionPolicy :=
  if (f.entries? s).isSome then
    { f with sections := f.sections.map fun e => if e.1 = s then (s,es) else e }
  else { f with sections := f.sections ++ [(s,es)] }

/-- Position of the first entry with a name. An entry without one stops the search. -/
def findName (name : String) : List Entry → Outcome (Option Nat)
  | [] => .ok none
  | e :: es =>
    match e.name with
    | none => .error .unknownKey
    | some n => if n == name then .ok (some 0) else do return (← findName name es).map (· + 1)

/-- Position of the entry for a variable. Variables without a name are never found. -/
def position? (s : Section) (var : Node) : Outcome (Option Nat) := do
  match f.entries? s with
  | none => return none
  | some es =>
    match ← var.declaredName with
    | .identifier _ name => findName name es
    | _ => return none

def find (s : Section) (var : Node) : Outcome (Option Entry) := do
  match ← f.position? s var with
  | none => return none
  | some k => return (f.entries? s).bind (·[k]?)

def annotatedType (p : Program) (var : Node) : Outcome (Node × Node) := do
  match ← p.typeOf var with
  | .annotated i type written owner => return (type,.annotated i type written owner)
  | _ => .error .absent

def newEntry (p : Program) (s : Section) (var : Node) : Outcome Entry := do
  let name := match ← var.declaredName with
    | .identifier _ name => some name
    | _ => none
  if var.isStateVariable then return { name }
  let (type,annotated) ← annotatedType p var
  let text := Text.eraseAnnotations (← type.code {})
  let e : Entry := { name, type := some text }
  let e ← match s with
    | .outputs => do pure { e with shape := some (← Shape.ofType type) }
    | .inputs => do
      let again ← Source.piece (← type.code {})
      let shape ← Shape.ofType again
      pure { e with shape := some shape, concrete := some (← again.concreteType.code {}) }
    | _ => pure e
  return { e with ownership := some (← Ownership.ofType annotated) }

def isMappingState (p : Program) (var : Node) : Outcome Bool := do
  if !var.isStateVariable then return false
  return (← annotatedType p var).1 matches .mapping ..

/-- Adds a variable, and for a mapping the key that is used. Tells whether anything is new. -/
def add (p : Program) (s : Section) (var : Node) (key : String) : Change Bool := do
  let f ← get
  if (f.entries? s).isNone then set (f.setEntries s [])
  let found ← Pass.lift ((← get).position? s var)
  let (k,isNew) ← match found with
    | some k => pure (k,false)
    | none => do
      let e ← Pass.lift (newEntry p s var)
      let es := ((← get).entries? s).getD []
      modify fun f => f.setEntries s (es ++ [e])
      pure (es.length,true)
  if ← Pass.lift (isMappingState p var) then
    let key := Text.eraseAnnotations key
    let es := ((← get).entries? s).getD []
    let keys := ((es[k]?).bind (·.keys)).getD []
    let added := !keys.contains key
    modify fun f => f.setEntries s (es.modify k fun e =>
      { e with keys := some (if added then keys ++ [key] else keys) })
    return isNew || added
  return isNew

/-- Collects the parameter types for the signature, and drops them from the entries. -/
def takeConcrete : List Entry → List Entry × Outcome (List String)
  | [] => ([],.ok [])
  | e :: es =>
    match e.concrete with
    | none => (e :: es,.error .unknownKey)
    | some c =>
      let (rest,r) := takeConcrete es
      ({ e with concrete := none } :: rest,r.map (c :: ·))

def signature (name : String) (types : List String) : String :=
  name ++ "(" ++ String.intercalate "," types ++ ")"

def selectorOf (signature : String) : String :=
  "0x" ++ Digest.hex ((Digest.Keccak.hash (Digest.bytesOf signature)).take 4)

def setSelector : Change Unit := do
  let f ← get
  let (es,types) := takeConcrete ((f.entries? .inputs).getD [])
  if (f.entries? .inputs).isSome then set (f.setEntries .inputs es)
  let types ← Pass.lift types
  modify fun f => { f with selector := some (selectorOf (signature f.name types)) }

def toValue (f : FunctionPolicy) : Value :=
  .record <|
    [("type",.text "function"),("name",.text f.name),("privacy",.int f.privacy.rank)] ++
    (f.sections.map fun (s,es) => (s.word,.list (es.map (·.toValue)))) ++
    (f.selector.map fun s => ("entry",.text s)).toList

/-- Values that are read have no order of their own: entries are ordered by name, and the keys of
an entry by their text. -/
def sorted : FunctionPolicy :=
  { f with sections := f.sections.map fun (s,es) =>
    if s = .read then
      (s,(es.map fun e => { e with keys := e.keys.map fun ks => ks.mergeSort fun a b => a ≤ b }).mergeSort
        fun a b => a.name.getD "" ≤ b.name.getD "")
    else (s,es) }

end FunctionPolicy

structure StateEntry where
  name : Option String
  type : String
  shape : Shape
  ownership : Ownership
deriving DecidableEq

namespace StateEntry

def toValue (e : StateEntry) : Value :=
  .record ((e.name.map fun s => ("name",.text s)).toList ++
    [("type",.text e.type),("structural_type",e.shape.toValue),("owner",e.ownership.toValue)])

def ofVariable (p : Program) (var : Node) : Outcome StateEntry := do
  let name := match ← var.declaredName with
    | .identifier _ name => some name
    | _ => none
  let (type,annotated) ← FunctionPolicy.annotatedType p var
  return { name, type := Text.eraseAnnotations (← type.code {}), shape := ← Shape.ofType type
           ownership := ← Ownership.ofType annotated }

def mappingPosition (e : StateEntry) : Int :=
  match Text.find? "mapping".toList e.type.toList with
  | some k => k
  | none => -1

end StateEntry

structure PrivacyPolicy where
  contract : String := ""
  states : List StateEntry := []
  functions : List FunctionPolicy := []

namespace PrivacyPolicy

def sortStates (p : PrivacyPolicy) : PrivacyPolicy :=
  { p with states := p.states.mergeSort fun a b => a.mappingPosition ≤ b.mappingPosition }

def function? (p : PrivacyPolicy) (name : String) : Option FunctionPolicy :=
  p.functions.find? fun f => f.name == name

def toValue (p : PrivacyPolicy) : Value :=
  .record [("contract",.text p.contract),("states",.list (p.states.map (·.toValue))),
    ("functions",.list (p.functions.map (·.toValue)))]

def sorted (p : PrivacyPolicy) : PrivacyPolicy :=
  { p with functions := p.functions.map (·.sorted) }

end PrivacyPolicy
end Confidential
