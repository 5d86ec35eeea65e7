import Confidential.Policy.Generation

/-!
A policy that is drawn up by hand.
-/

namespace Confidential

structure PolicyDraft where
  policies : Array FunctionPolicy := #[]
  named : List (String × Nat) := []
  entered : List Nat := []
  contract : String := ""
  states : List StateEntry := []

/-- Work on a draft. What was done before a failure stays done. -/
abbrev Drafting (α : Type) : Type :=
  ExceptT Fault (StateM PolicyDraft) α

def PolicyDraft.policy (d : PolicyDraft) : PrivacyPolicy :=
  { contract := d.contract, states := d.states, functions := d.entered.filterMap (d.policies[·]?) }

namespace Drafting

def start (name : String) (privacy : Privacy) : Drafting Unit :=
  modify fun d => { d with
    policies := d.policies.push { name, privacy }
    named := (name,d.policies.size) :: d.named }

def position (name : String) : Drafting Nat := do
  match (← get).named.lookup name with
  | some k => return k
  | none => throw .unknownKey

def within {α : Type} (name : String) (work : FunctionPolicy.Change α) : Drafting α := do
  let k ← position name
  let d ← get
  let (r,f) := work.run ((d.policies[k]?).getD {})
  set { d with policies := d.policies.setIfInBounds k f }
  Pass.lift r

def enter (name : String) : Drafting Unit := do
  within name FunctionPolicy.setSelector
  let k ← position name
  modify fun d => { d with entered := d.entered ++ [k] }

def addState (p : Program) (var : Node) : Drafting Unit := do
  let e ← Pass.lift (StateEntry.ofVariable p var)
  modify fun d => { d with states := d.states ++ [e] }

def sortStates : Drafting Unit :=
  modify fun d => { d with states := d.policy.sortStates.states }

/-- The entries of a function in a section. A function without inputs has none of them. -/
def entries (name : String) (s : Section) : Drafting (List Entry) := do
  match ← within name do return (← get).entries? s with
  | some es => return es
  | none => if s = .inputs then return [] else throw .unknownKey

end Drafting

/-- The variables that policies speak of: the state variables of the first contract by their names, and
parameters and results behind the name of their function. -/
def Program.policyVariables (p : Program) : List (String × Node) :=
  match p.contracts with
  | [] => []
  | c :: _ =>
    let states := c.stateVariables.filterMap fun v => match v.ownName? with
      | some (.identifier _ t) => some (t,v)
      | _ => none
    let locals := p.routines.flatMap fun f => match f with
      | .function _ (.identifier _ name) parameters _ results _ _ =>
        (parameters.getD [] ++ results).map fun v => match v.ownName? with
          | some (.identifier _ t) => (name ++ "." ++ t,v)
          | _ => (name ++ ".",v)
      | _ => []
    states ++ locals
end Confidential
