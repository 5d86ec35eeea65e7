import Confidential.Fault
import Confidential.Owner

/-!
Partitions of a finite set into classes of elements that are known to be equal.
-/

namespace Confidential

/-- Classes by index; `next` is above every index in use. -/
structure Partition (α : Type) where
  parts : List (Nat × List α) := []
  next : Nat := 0

namespace Partition

variable {α : Type} [DecidableEq α] (s : Partition α)

def elements : List α :=
  s.parts.flatMap Prod.snd

def insertPart (part : List α) : Partition α :=
  { parts := s.parts ++ [(s.next,part)], next := s.next + 1 }

def insert (x : α) : Partition α :=
  s.insertPart [x]

def index? (x : α) : Option Nat :=
  (s.parts.find? fun p => p.2.contains x).map Prod.fst

def has (x : α) : Bool :=
  (s.index? x).isSome

def part (k : Nat) : List α :=
  (s.parts.lookup k).getD []

/-- Are `x` and `y` in one class? An element is always with itself, present or not. -/
def samePart (x y : α) : Bool :=
  if x = y then true
  else match s.index? x, s.index? y with
    | some i, some j => i == j
    | _, _ => false

def modifyPart (k : Nat) (f : List α → List α) : Partition α :=
  { s with parts := s.parts.map fun p => if p.1 = k then (p.1,f p.2) else p }

def erasePart (k : Nat) : Partition α :=
  { s with parts := s.parts.filter fun p => p.1 ≠ k }

def union (xs ys : List α) : List α :=
  xs ++ ys.filter fun y => !xs.contains y

/-- The class of `y` joins the class of `x`. -/
def merge (x y : α) : Outcome Unit × Partition α :=
  match s.index? x, s.index? y with
  | none, none => (.ok (),s)
  | _, none => (.error .unknownKey,s)
  | none, some j => (.error .unknownKey,s.erasePart j)
  | some i, some j =>
    if i = j then (.ok (),s)
    else (.ok (),(s.erasePart j).modifyPart i fun xs => union xs (s.part j))

def remove (x : α) : Outcome Unit × Partition α :=
  match s.index? x with
  | none => (.error .violated,s)
  | some i =>
    let s' := s.modifyPart i fun xs => xs.filter (· ≠ x)
    (.ok (),if (s'.part i).isEmpty then s'.erasePart i else s')

/-- `x` leaves its class and joins the class of `y`. It has left its class already when `y` turns
out to be in none. -/
def moveTo (x y : α) : Outcome Unit × Partition α :=
  if s.samePart x y then (.ok (),s)
  else match s.remove x with
    | (.error e,s') => (.error e,s')
    | (.ok (),s') =>
      match s'.index? y with
      | none => (.error .unknownKey,s')
      | some j => (.ok (),s'.modifyPart j fun ys => union ys [x])

def moveToSeparate (x : α) : Outcome Unit × Partition α :=
  match s.remove x with
  | (.error e,s') => (.error e,s')
  | (.ok (),s') => (.ok (),s'.insert x)

/-- Every element gets a class of its own, except that unchangeable elements stay together. -/
def separateAll (isImmutable : α → Bool) (s : Partition α) : Partition α :=
  s.parts.foldl (fun t p =>
    let fixed := p.2.filter isImmutable
    let t := (p.2.filter fun x => !isImmutable x).foldl insert t
    if fixed.isEmpty then t else t.insertPart fixed) {}

/-- The classes that both partitions agree on. They have to be of the same elements. -/
def join (s t : Partition α) : Outcome (Partition α) :=
  if s.elements.all t.elements.contains && t.elements.all s.elements.contains then
    let shared := s.elements.map fun x =>
      match s.index? x, t.index? x with
      | some i, some j => (s.part i).filter (t.part j).contains
      | _, _ => []
    .ok (shared.eraseDups.foldl insertPart {})
  else .error .violated

def restrict (keep : List α) : Partition α :=
  { s with parts := (s.parts.map fun p => (p.1,p.2.filter keep.contains)).filter fun p => !p.2.isEmpty }

def isAtMost : List String → List String → Bool
  | [], _ => true
  | _ :: _, [] => false
  | a :: as, b :: bs => a < b || a = b && isAtMost as bs

def sortedTexts (name : α → String) (s : Partition α) : List (List String) :=
  let classes := s.parts.map fun p =>
    ((p.2.map name).eraseDups).mergeSort fun a b => a ≤ b
  classes.mergeSort isAtMost

end Partition

/-- Who can be the owner of a value: a given owner, or whoever a variable names. -/
inductive Label where
  | owner (who : Owner)
  | identifier (id : Nat)
deriving DecidableEq, Inhabited

end Confidential
