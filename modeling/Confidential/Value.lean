import Confidential.Fault

/-!
Plain data: what configuration files, policies and reports are made of. In an answer, a part that could
not be found out is replaced by the reason.
-/

namespace Confidential

/-- Fields of a record stand in the order in which they were put there. -/
inductive Value where
  | null
  | bool (value : Bool)
  | int (value : Int)
  | real (value : Float)
  | text (value : String)
  | list (items : List Value)
  | record (fields : List (String × Value))
deriving Inhabited

namespace Value

def get? (v : Value) (key : String) : Option Value :=
  match v with
  | .record fields => fields.lookup key
  | _ => none

def field (v : Value) (key : String) : Outcome Value :=
  match v with
  | .record fields =>
    match fields.lookup key with
    | some a => .ok a
    | none => .error .unknownKey
  | _ => .error .misused

def ofTexts (texts : List String) : Value :=
  .list (texts.map .text)

def asInt? : Value → Option Int
  | .int n => some n
  | .bool b => some (if b then 1 else 0)
  | _ => none

mutual

/-- Numbers are equal if their values are, whatever their kinds. -/
def same : Value → Value → Bool
  | .null, .null => true
  | .text a, .text b => a == b
  | .real x, .real y => x == y
  | .real x, v | v, .real x =>
    match v.asInt? with
    | some n => x == Float.ofInt n
    | none => false
  | .list as, .list bs => sameItems as bs
  | .record as, .record bs => as.length == bs.length && sameFields as bs
  | a, b =>
    match a.asInt?, b.asInt? with
    | some m, some n => m == n
    | _, _ => false

def sameItems : List Value → List Value → Bool
  | [], [] => true
  | a :: as, b :: bs => a.same b && sameItems as bs
  | _, _ => false

def sameFields : List (String × Value) → List (String × Value) → Bool
  | [], _ => true
  | (k,a) :: as, bs =>
    (match bs.lookup k with
      | some b => a.same b
      | none => false) && sameFields as bs

end

def isTrue : Value → Bool
  | .null => false
  | .bool b => b
  | .int n => n != 0
  | .real x => x != 0.0
  | .text s => !s.isEmpty
  | .list vs => !vs.isEmpty
  | .record fs => !fs.isEmpty

end Value

inductive Answer where
  | value (value : Value)
  | fault (fault : Fault)
  | list (items : List Answer)
  | record (fields : List (String × Answer))

namespace Answer

def null : Answer :=
  .value .null

def text (s : String) : Answer :=
  .value (.text s)

def bool (b : Bool) : Answer :=
  .value (.bool b)

def int (n : Int) : Answer :=
  .value (.int n)

def texts (ss : List String) : Answer :=
  .value (Value.ofTexts ss)

def of {α : Type} (show' : α → Answer) : Outcome α → Answer
  | .ok a => show' a
  | .error e => .fault e

def ofOutcome : Outcome Answer → Answer :=
  of id

end Answer
end Confidential
