import Confidential.Elementary
import Confidential.Program.Query

/-!
When two nodes are the same: types if they stand for the same values, owners if they are the same
persons, and all other nodes if they are one and the same.
-/

namespace Confidential

def UserKind.isAddress : UserKind → Bool
  | .address | .addressPayable => true
  | _ => false

namespace Node

def isGeneralType : Node → Bool
  | .general _ .typeName => true
  | _ => false

def identical : Node → Node → Bool
  | .omitted, .omitted => true
  | .plain v, .plain w => v.same w
  | .omitted, _ | .plain _, _ | _, .omitted | _, .plain _ => false
  | a, b => a.id = b.id

def identicalLists : Option (List Node) → Option (List Node) → Bool
  | none, none => true
  | some as, some bs => as.length = bs.length && (as.zip bs).all fun (a,b) => a.identical b
  | _, _ => false

end Node

namespace Program

def qualifiedTexts (p : Program) (n : Node) : Outcome (List String) := do
  if n.isOmitted then .error .absent
  return (← p.qualifiedName n).map fun k => ((p.node k).identifierText?).getD ""

def agreeingNames (xs ys : List String) : Bool :=
  (xs.zip ys).all fun (x,y) => x == y

/-- Are two named types the same? Addresses are; other types have to be declared by the same names. -/
def sameUserType (p : Program) (a b : Node) (j k : UserKind) : Outcome Bool := do
  let (a,b,j,k) := if j = .plain ∧ k ≠ .plain then (b,a,k,j) else (a,b,j,k)
  if j.isAddress then return j = k
  return agreeingNames (← p.qualifiedTexts (← p.target a)) (← p.qualifiedTexts (← p.target b))

/-- The sizes of arrays are the same if both are the same number or both are left open. -/
def sameSize : Node → Node → Bool
  | .number _ v _ _ _, .number _ w _ _ _ => v = w
  | .omitted, .omitted => true
  | _, _ => false

/-- Are two nodes the same? Nothing is known of a type that is just any type. -/
def same (p : Program) (a b : Node) : Outcome Bool := do
  match a, b with
  | .elementary _ s, .elementary _ t => return s.same t
  | .userType _ j _, .userType _ k _ => p.sameUserType a b j k
  | .mapping _ k _ v, .mapping _ l _ w => if ← p.same k l then p.same v w else return false
  | .arrayType _ v m, .arrayType _ w n => if ← p.same v w then return sameSize m n else return false
  | .tupleType _ ts, .tupleType _ us =>
    if ts.length ≠ us.length then return false
    (ts.attach.zip us).foldlM (fun so (⟨t,_⟩,u) => if so then p.same t u else return false) true
  | .functionType _ ps ms rs, .functionType _ qs ns ss =>
    return Node.identicalLists ps qs && Node.identicalLists (some ms) (some ns) && Node.identicalLists rs ss
  | .annotated _ t _ o, .annotated _ u _ q => if ← p.same t u then p.same o q else return false
  | .owner _ x, .owner _ y => return x = y
  | a, b =>
    if a.isGeneralType then
      if b.isTypeName && !b.isGeneralType then return false else .error (.unsupported (some ""))
    else if b.isGeneralType then
      if a.isTypeName || a matches .annotated .. || a matches .owner .. then return false
      else .error (.unsupported (some ""))
    else return a.identical b
termination_by sizeOf a

end Program
end Confidential
