import Confidential.Value.Shown

/-!
Tables with a default for missing keys. A table remembers in which form a key was used last, and
also keys that were only asked for. Lists are kept apart from the tables, so that two tables can
hold the same list.
-/

namespace Confidential

namespace Catalogue

inductive Holding where
  | plain (value : Value)
  | list (id : Nat)
  | table (id : Nat)

structure Volume where
  entries : List (Value × Holding) := []
  forms : List (Value × Value) := []
  fallback : Holding := .plain .null

end Catalogue

open Catalogue in
structure Catalogue where
  lists : Array (List Value) := #[]
  tables : Array Volume := #[]
  names : List (String × Nat) := []

namespace Catalogue

def keyOf : Value → Outcome Value
  | .list vs => .ok (.text (Value.shown (.list vs)))
  | .record _ => .error .misused
  | v => .ok v

def find? {α : Type} (key : Value) (rows : List (Value × α)) : Option α :=
  (rows.find? fun r => r.1.same key).map Prod.snd

def insert {α : Type} (key : Value) (a : α) (rows : List (Value × α)) : List (Value × α) :=
  if rows.any fun r => r.1.same key then
    rows.map fun r => if r.1.same key then (r.1,a) else r
  else rows ++ [(key,a)]

namespace Volume

def noteKey (t : Volume) (key : Value) : Outcome (Value × Volume) := do
  let k ← keyOf key
  return (k,{ t with forms := insert k key t.forms })

def rows (t : Volume) : List (Value × Holding) :=
  t.entries.map fun (k,e) => ((find? k t.forms).getD k,e)

end Volume

variable (c : Catalogue)

/-! ### Equality and text -/

def items (id : Nat) : List Value :=
  (c.lists[id]?).getD []

def table (id : Nat) : Volume :=
  (c.tables[id]?).getD {}

/-- Equality of what tables hold, through at most `fuel` tables inside of each other. -/
def sameHolding (c : Catalogue) : Nat → Holding → Holding → Bool
  | _, .plain a, .plain b => a.same b
  | _, .list a, .list b => Value.sameItems (c.items a) (c.items b)
  | fuel + 1, .table a, .table b =>
    let left := (c.table a).entries
    let right := (c.table b).entries
    left.length == right.length && left.all fun (k,e) =>
      match find? k right with
      | some e' => sameHolding c fuel e e'
      | none => false
  | _, _, _ => false

def same (a b : Holding) : Bool :=
  c.sameHolding (c.tables.size + 1) a b

def shownHolding (c : Catalogue) : Nat → Holding → String
  | _, .plain v => v.shown
  | _, .list id => Value.shown (.list (c.items id))
  | 0, .table _ => "\x7b...\x7d"
  | fuel + 1, .table id =>
    let rows := (c.table id).entries.map fun (k,e) => k.shown ++ ": " ++ shownHolding c fuel e
    "\x7b" ++ String.intercalate ", " rows ++ "\x7d"

def plainHolding : Holding → String
  | .plain v => v.plainText
  | e => c.shownHolding (c.tables.size + 1) e

/-! ### Views -/

/-- What is shown of an entry: tables as they are at the moment, lists as they are in the end. -/
inductive View where
  | value (v : Value)
  | list (id : Nat)
  | views (items : List View)

def view (c : Catalogue) : Nat → Holding → View
  | _, .plain v => .value v
  | _, .list id => .list id
  | 0, .table _ => .value .null
  | fuel + 1, .table id =>
    .views ((c.table id).rows.map fun (k,e) => .views [.value k,view c fuel e])

def viewOf (e : Holding) : View :=
  c.view (c.tables.size + 1) e

mutual

def View.toValue (c : Catalogue) : View → Value
  | .value v => v
  | .list id => .list (c.items id)
  | .views vs => .list (View.toValues c vs)

def View.toValues (c : Catalogue) : List View → List Value
  | [] => []
  | v :: vs => View.toValue c v :: View.toValues c vs

end

def overview : List (String × View) :=
  c.names.map fun (n,id) => (n,c.viewOf (.table id))

end Catalogue

/-! ### Changes -/

/-- Work on a catalogue; what was changed before an error stays changed. -/
abbrev Cataloguing (α : Type) := ExceptT Fault (StateM Catalogue) α

namespace Cataloguing

open Catalogue

def keep : Value → Cataloguing Holding
  | .list vs => modifyGet fun c => (.list c.lists.size,{ c with lists := c.lists.push vs })
  | v => return .plain v

def newTable (t : Volume) : Cataloguing Nat :=
  modifyGet fun c => (c.tables.size,{ c with tables := c.tables.push t })

def named (name : String) : Cataloguing Nat := do
  match (← get).names.lookup name with
  | some id => return id
  | none => throw .unknownKey

def name (name : String) (id : Nat) : Cataloguing Unit :=
  modify fun c => { c with names := c.names.filter (·.1 != name) ++ [(name,id)] }

def setTable (id : Nat) (t : Volume) : Cataloguing Unit :=
  modify fun c => { c with tables := c.tables.setIfInBounds id t }

def useKey (id : Nat) (key : Value) : Cataloguing Value := do
  match ((← get).table id).noteKey key with
  | .ok (k,t) =>
    setTable id t
    return k
  | .error f => throw f

def has (id : Nat) (key : Value) : Cataloguing Bool := do
  let k ← useKey id key
  return (find? k ((← get).table id).entries).isSome

def put (id : Nat) (key : Value) (e : Holding) : Cataloguing Unit := do
  let k ← useKey id key
  let t := (← get).table id
  setTable id { t with entries := insert k e t.entries }

mutual

/-- A copy of an entry; what a table or a list holds is not copied with it. -/
def copy : Nat → Holding → Cataloguing Holding
  | _, .plain v => return .plain v
  | _, .list id => do keep (.list ((← get).items id))
  | 0, e => return e
  | fuel + 1, .table id => .table <$> copyTable fuel id

def copyTable : Nat → Nat → Cataloguing Nat
  | fuel, id => do
    let t := (← get).table id
    newTable { t with fallback := ← copy fuel t.fallback }

end

def fetch (id : Nat) (key : Value) : Cataloguing Holding := do
  let k ← useKey id key
  let t := (← get).table id
  match find? k t.entries with
  | some e => return e
  | none =>
    let e ← copy ((← get).tables.size + 1) t.fallback
    put id key e
    return e

def extend (id other : Nat) : Cataloguing Unit :=
  modify fun c => { c with lists := c.lists.setIfInBounds id (c.items id ++ c.items other) }

/-- Two tables have to agree on the default and on the form of the keys that both of them know. -/
def checkUnion (a b : Volume) : Cataloguing Unit := do
  let c ← get
  if !c.same a.fallback b.fallback then
    throw (.badValue (some s!"Inconsistent default values: {c.plainHolding a.fallback} vs {c.plainHolding b.fallback}"))
  for (k,form) in a.forms do
    if let some form' := find? k b.forms then
      if !form.same form' then throw .violated

/-- A table with the rows of two tables. Tables under the same key are united themselves; anything
else under the same key is refused, though lists are joined before. -/
def union : Nat → Nat → Nat → Cataloguing Nat
  | fuel, a, b => do
    let left := (← get).table a
    let right := (← get).table b
    checkUnion left right
    let forms := right.forms.foldl (fun so (k,form) => insert k form so) left.forms
    let r ← newTable { left with forms }
    for (key,e) in right.rows do
      if !(← has r key) then put r key e
      else
        match ← fetch r key, e, fuel with
        | .list x, .list y, _ =>
          extend x y
          throw (.unsupported (some ""))
        | .table x, .table y, fuel + 1 => put r key (.table (← union fuel x y))
        | _, _, _ => throw (.unsupported (some ""))
    return r

def unite (a b : Nat) : Cataloguing Nat := do
  union ((← get).tables.size + 1) a b

def duplicate (id : Nat) : Cataloguing Nat := do
  copyTable ((← get).tables.size + 1) id

def printed (id : Nat) : Cataloguing String := do
  let c ← get
  let rows := (c.table id).rows.map fun (k,e) => k.plainText ++ ":\n" ++ c.plainHolding e ++ "\n"
  return "=====START OF DICT=====\n" ++ String.join rows ++ "=====END OF DICT=====\n"

end Cataloguing
end Confidential
