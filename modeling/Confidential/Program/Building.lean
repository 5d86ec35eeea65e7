import Confidential.Scope.Resolution

/-!
Expressions that are put together while a program is worked on, and the parts of a definition by their
names.
-/

namespace Confidential.Pass

def withType (n type : Node) : Pass Node := do
  if !n.isExpression then throw .absent
  if n.isBare && !(← get).types.contains n.id then
    throw (.badValue (some s!"Class \"{n.label}\" does not have property \"annotated_type\""))
  let type ← register type.withAnyOwner
  modify fun p => { p with types := p.types.insert n.id type }
  return n

def elementAt (base key : Node) : Pass Node := do
  if !base.isLocation then throw .absent
  match ← ask fun p => p.typeOf base with
  | .annotated _ type _ _ =>
    let value ← match type with
      | .arrayType _ value _ | .mapping _ _ _ value => pure value
      | _ => throw .violated
    withType (← register (.index {} base (← ofOutcome key.asLiteral))) value
  | _ => throw .absent

/-- A choice between two values by a condition of a known type. It counts as an operation on private
values. -/
def choose (condition yes no : Node) : Pass Node := do
  match ← ask fun p => p.typeOf condition with
  | .annotated .. =>
    let n ← register (Node.callOf (.builtin {} .conditional) [condition,yes,no])
    match n with
    | .call _ callee _ _ =>
      modify fun p => { p with privateOperators := p.privateOperators.insert callee.id true }
    | _ => pure ()
    return n
  | _ => throw .absent

def partNamed (n : Node) (name : String) : Pass Node := do
  match n with
  | .contract .. =>
    if name == "constructor" then
      match n.constructors with
      | [c] => return c
      | [] => throw .violated
      | _ => throw (.badValue (some "Multiple constructors exist"))
    return (← get).node (← memberOf n name)
  | .source .. =>
    let c := (← get).node (← memberOf n name)
    if c.isContract then return c else throw .violated
  | _ => throw .misused

def sourceAround (n : Node) : Pass Node := do
  let p ← get
  match p.closest? (·.isSource) n with
  | some s => return s
  | none => throw .absent

def participant (f : Node) (name : String) : Pass Node := do
  match ((← get).facts f).participants with
  | some people =>
    return (people.find? fun n => match n with
      | .identifier _ t => t == name
      | _ => false).getD .omitted
  | none => throw .absent

end Confidential.Pass
