import Confidential.Analysis.Aliases
import Confidential.Typing.Conversion

/-!
Does an expression fit a type with an owner? Values that everybody may see can be hidden to fit.
-/

namespace Confidential

/-- The owner that two annotated types have in common; for tuples those of their components. -/
inductive Shared where
  | nobody
  | owner (owner : Node)
  | each (components : List Shared)

/-- Does an expression fit: not at all, as it is, or after its value has been hidden? -/
inductive Fit where
  | no
  | yes
  | byHiding
deriving DecidableEq

namespace Program

/-- The owner that two annotated types have in common, where `known` tells which owners are the same. -/
def sharedOwner (p : Program) (known : Option (Partition Label)) (a b : Node) : Outcome Shared := do
  match a with
  | .annotated _ (.tupleType _ ts) _ _ =>
    match b with
    | .annotated _ (.tupleType _ us) _ _ =>
      if ts.length ≠ us.length then .error .violated
      return .each (← (ts.attach.zip us).mapM fun (⟨t,_⟩,u) => p.sharedOwner known t u)
    | .annotated .. => .error .violated
    | _ => .error .absent
  | .annotated _ _ _ own =>
    match b with
    | .annotated _ _ _ other =>
      match ← p.label other, ← p.label own with
      | some x, some y =>
        if x = y || (known.map (·.samePart x y)).getD false then return .owner own
        if own matches .owner _ .all then return .owner other
        return .nobody
      | _, _ => return .nobody
    | _ => .error .absent
  | _ => .error .absent
termination_by sizeOf a

def knownAt (p : Program) (n : Node) : Outcome (Option (Partition Label)) := do
  let s ← p.statement n
  return if s.isOmitted then none else p.before[s.id]?

def typeNameOf (p : Program) (n : Node) : Outcome Node := do
  match ← p.typeOf n with
  | .annotated _ t _ _ => .ok t
  | _ => .error .absent

def fitsType (p : Program) (n type : Node) : Outcome Bool := do
  p.converts (← p.typeNameOf n) type

def sameOwners (p : Program) (found : List Shared) (components : List Node) : Outcome Bool := do
  if found.length ≠ components.length then return false
  (found.zip components).foldlM (fun so (s,c) => do
    match c with
    | .annotated _ _ _ owner =>
      if !so then return false
      match s with
      | .owner o => if o.identical owner then return true else p.same o owner
      | _ => return false
    | _ => .error .absent) true

def fits (p : Program) (n expected : Node) : Outcome Fit := do
  match expected with
  | .annotated _ type _ _ =>
    let actual ← p.typeOf n
    if !(← p.fitsType n type) then return .no
    match ← p.sharedOwner (← p.knownAt n) actual expected with
    | .nobody => return .no
    | .each found =>
      match actual with
      | .annotated _ (.tupleType _ components) _ _ =>
        if n matches .tuple .. then .error .violated
        return if ← p.sameOwners found components then .yes else .no
      | _ => .error .violated
    | .owner owner =>
      match actual with
      | .annotated _ _ _ own => return if (← p.label owner) = (← p.label own) then .yes else .byHiding
      | _ => .error .absent
  | _ => .error .violated

end Program
end Confidential
