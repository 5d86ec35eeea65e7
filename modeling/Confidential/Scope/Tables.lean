import Confidential.Globals
import Confidential.Text.Printable

/-!
Which node declares which names.
-/

namespace Confidential

abbrev Names : Type :=
  List (String × Nat)

namespace Names

def put (t : Names) (name : String) (k : Nat) : Names :=
  if t.any (·.1 == name) then t.map fun e => if e.1 == name then (name,k) else e
  else t ++ [(name,k)]

def ofList (entries : List (String × Nat)) : Names :=
  entries.foldl (fun t e => t.put e.1 e.2) []

def update (t u : Names) : Names :=
  u.foldl (fun t e => t.put e.1 e.2) t

/-- Joins tables. Two declarations of one name do not go together. -/
def merge (tables : List Names) : Outcome Names :=
  tables.flatten.foldlM (fun t e =>
    match t.lookup e.1 with
    | some k =>
      if k = e.2 then .ok t
      else .error (.badValue (some s!"('Conflicting definitions for', {Text.quoted e.1})"))
    | none => .ok (t ++ [e])) []

end Names

namespace Pass

def setNames (n : Node) (t : Names) : Pass Unit :=
  modify fun p => { p with links := { p.links with names := p.links.names.insert n.id t } }

def declaredNames (ns : List Node) : Outcome Names :=
  Names.ofList <$> ns.mapM fun n =>
    match n.ownName? with
    | some (.identifier i name) => .ok (name,i.id)
    | _ => .error .absent

/-- The names declared by the parts of a statement. Inner blocks and loops keep theirs. -/
def collectNames (n : Node) : Pass Names := do
  let parts := n.children.filter fun c => !(c.isBlock || c matches .forLoop ..)
  let tables ← parts.mapM fun c => do
    if c matches .userType .. then throw .absent
    ask fun p => p.names c
  let all ← ofOutcome (Names.merge tables)
  parts.forM fun c => setNames c []
  return all

def checkOverloading : Names → List Node → Pass Unit
  | _, [] => return ()
  | seen, f :: fs => do
    let name ← ofOutcome (Program.nameText f)
    if seen.any (·.1 == name) then
      refuse .unknownName f "Cloak does not currently support method overloading."
    checkOverloading (seen.put name f.id) fs

def contractNames (n : Node) : Pass Names := do
  let states ← ofOutcome (declaredNames n.stateVariables)
  checkOverloading [] n.functions
  let defined ← ofOutcome (declaredNames (n.units.filter (·.isNamespace)))
  ofOutcome (Names.merge [states,defined])

def fillOne (n : Node) : Pass Unit := do
  match n with
  | .library _ _ units => setNames n (← ofOutcome (declaredNames (units.filter (·.isNamespace))))
  | .contract .. => setNames n (← contractNames n)
  | .function _ _ parameters _ _ _ _ =>
    setNames n (← ofOutcome (declaredNames (parameters.getD [])))
  | .modifier _ _ parameters _ _ _ =>
    let t ← ofOutcome (declaredNames parameters)
    let placeholder ← register (.identifier {} "_")
    setNames n (t.put "_" placeholder.id)
  | .struct _ _ members => setNames n (← ofOutcome (declaredNames members))
  | .enum _ _ values => setNames n (← ofOutcome (declaredNames values))
  | .declaration _ .variable _ _ _ _ => setNames n (← ofOutcome (declaredNames [n]))
  | .statements .. | .expressionStatement .. | .require .. | .assign .. | .variableStatement ..
  | .variablesStatement .. | .general _ .simpleStatement | .forLoop .. => setNames n (← collectNames n)
  | .mapping _ _ label _ =>
    setNames n (match label with
      | .identifier i name => [(name,i.id)]
      | _ => [])
  | _ => return ()

def fillBelow (n : Node) : Pass Unit := do
  if n.lacksParameters then throw .misused
  n.children.attach.forM fun ⟨c,_⟩ => fillBelow c
  fillOne n
termination_by sizeOf n
decreasing_by exact Node.sizeOf_lt_child (by assumption)

def fillGlobals : Pass Names := do
  (← get).globalDefinitions.forM fun k => do fillBelow ((← get).node k)
  return Names.ofList (← get).globalNames

def fillNames (n : Node) : Pass Unit := do
  fillBelow n
  if n.isSource then
    let own ← ofOutcome (declaredNames (n.units.filter (·.isContract)))
    setNames n (own.update (← fillGlobals))

end Pass
end Confidential
