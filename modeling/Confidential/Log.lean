import Confidential.Json
import Confidential.Value.Shown

/-!
A log of data. Every entry is written together with the context in which it arose.
-/

namespace Confidential

structure Log where
  context : List (Value × Value) := []
  data : String := ""

namespace Log

def find? (l : Log) (key : Value) : Option Nat :=
  l.context.findIdx? fun e => key.same e.1

def add (l : Log) (key value : Value) : Outcome Log :=
  match key, value with
  | .null, _ | _, .null => .error .violated
  | key, value => .ok { l with context := l.context ++ [(key,value)] }

def remove (l : Log) (key : Value) : Outcome Log :=
  match l.find? key with
  | none => .error (.badValue (some s!"Key {key.plainText} not found"))
  | some i => .ok { l with context := l.context.eraseIdx i }

def contextValue (l : Log) : Value :=
  .list (l.context.map fun (k,v) => .list [k,v])

def record (l : Log) (key value : Value) : Log :=
  let entry := Value.record [("key",key),("value",value),("context",l.contextValue)]
  { l with data := l.data ++ Json.write Json.spaced entry ++ "\n" }

/-- Enters a part of the work: its piece of context is added unless the key is known, and the answer
tells whether it was. -/
def enter (l : Log) (key value : Value) : Outcome (Log × Bool) :=
  if (l.find? key).isSome then .ok (l,false) else do return (← l.add key value,true)

def leave (l : Log) (key : Value) (wasAdded : Bool) : Outcome Log :=
  if wasAdded then l.remove key else .ok l

end Log
end Confidential
