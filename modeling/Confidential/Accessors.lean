import Confidential.Policy

/-!
The functions by which the trusted environment takes the state of a contract and gives it back. The
state travels as an array of entries. A plain state takes its number and its value, or the three
parts of its ciphertext. A mapping takes its number, the count of its keys, and for every key the
parts of the key and of the value.

The functions are made as data: the index of every access to an array, where a running index starts and
how it is moved on are each an `Index`, whose text is the one that is written.
-/

namespace Confidential.Accessors

inductive Index where
  | fixed (k : Nat)
  | ahead (offset : Nat)
  /-- In a pass of a loop: so many places behind the running index, and `stride` more for every
  pass before. -/
  | each (offset stride : Nat)
  /-- When a loop has ended: so many places behind the running index, and `stride` more for every key. -/
  | behind (offset stride : Nat)

/-- A number or a variable in the expression for an index. -/
inductive Operand where
  | number (k : Nat)
  | running (name : String)

def Operand.text : Operand → String
  | .number k => toString k
  | .running name => name

namespace Index

/-- The expression for an index is a sum of products. -/
def terms (name : String) : Index → List (List Operand)
  | .fixed k => [[.number k]]
  | .ahead offset => [.running name] :: if offset = 0 then [] else [[.number offset]]
  | .each offset stride =>
    [[.running name],[.number offset],.running "i" :: if stride = 1 then [] else [.number stride]]
  | .behind offset stride => [[.running name],[.number offset],[.running "keys_count",.number stride]]

def text (name plus : String) (i : Index) : String :=
  match (i.terms name).map fun term => String.intercalate " * " (term.map Operand.text) with
  | first :: second :: rest => String.intercalate " + " ((first ++ plus ++ second) :: rest)
  | terms => String.join terms

end Index

structure Stored where
  name : String
  type : String
  keys : List String := []
  value : String
  isCipher : Bool

namespace Stored

def isMapping (s : Stored) : Bool :=
  !s.keys.isEmpty

def depth (s : Stored) : Nat :=
  s.keys.length

def parts (s : Stored) : List (Option Nat) :=
  if s.isCipher then [some 0,some 1,some 2] else [none]

def stride (s : Stored) : Nat :=
  s.depth + s.parts.length

def width (s : Stored) : Nat :=
  1 + s.parts.length

end Stored

/-- A place of the state: a state, the places where its keys are found with their types, and the
part of the ciphertext if it is one. -/
structure Target where
  name : String
  keys : List (Index × String) := []
  part : Option Nat := none

inductive Content where
  | number (k : Nat)
  | asked (i : Index)
  | state (t : Target)

structure Store where
  entry : Index
  content : Content

/-- A step of the setter: a place of the state, the entry of the data, and the type of the value
unless it is a part of a ciphertext. -/
structure Load where
  target : Target
  entry : Index
  type : Option String

/-- What is done for a mapping: the count of its keys is looked up, `body` is done for every key, and the
running indices are moved on. -/
structure Loop (α : Type) where
  header : List α := []
  count : Index := .ahead 1
  body : List α
  moves : List (String × Index)

/-- A generated function: the steps for plain states, the running indices and where they start, and the
loops. Steps and loops have the numbers of their states. -/
structure Accessor (α : Type) where
  plain : List (Nat × α)
  starts : List (String × Index)
  loops : List (Nat × Loop α)

def plainStates (states : List Stored) : List (Nat × Nat × Stored) × Nat :=
  states.zipIdx.foldl (fun (found,start) (s,k) =>
    if s.isMapping then (found,start) else (found ++ [(k,start,s)],start + s.width)) ([],0)

/-- The mappings with their numbers; the mark tells whether no state follows. -/
def mappings (states : List Stored) : List (Nat × Bool × Stored) :=
  (states.zipIdx.filter fun (s,_) => s.isMapping).map fun (s,k) => (k,k + 1 == states.length,s)

/-! ### The getter -/

def plainStores (k start : Nat) (s : Stored) : List Store :=
  ⟨.fixed start,.number k⟩ ::
    s.parts.zipIdx.map fun (part,j) => ⟨.fixed (start + 1 + j),.state { name := s.name, part }⟩

def keyedStores (isLast : Bool) (s : Stored) : Loop Store where
  header := [⟨.ahead 0,.asked (.ahead 0)⟩,⟨.ahead 1,.asked (.ahead 1)⟩]
  body :=
    let keys := s.keys.zipIdx.map fun (type,c) => (Index.each (2 + c) 1,type)
    (keys.zipIdx.map fun ((i,_),c) => ⟨.each (2 + c) s.stride,.asked i⟩) ++
    s.parts.zipIdx.map fun (part,j) =>
      ⟨.each (2 + s.depth + j) s.stride,.state { name := s.name, keys, part }⟩
  moves := if isLast then [] else [("os_idx",.behind 2 s.stride),("read_idx",.behind 2 s.depth)]

def getter (states : List Stored) : Accessor Store where
  plain := (plainStates states).1.flatMap fun (k,start,s) => (plainStores k start s).map (k,·)
  starts := [("read_idx",.fixed 0),("os_idx",.fixed (plainStates states).2),("keys_count",.fixed 0)]
  loops := (mappings states).map fun (k,isLast,s) => (k,keyedStores isLast s)

/-! ### The setter -/

def plainLoads (start : Nat) (s : Stored) : List Load :=
  s.parts.zipIdx.map fun (part,j) =>
    ⟨{ name := s.name, part },.fixed (start + 1 + j),if part.isSome then none else some s.type⟩

def keyedLoads (isLast : Bool) (s : Stored) : Loop Load where
  body :=
    let keys := s.keys.zipIdx.map fun (type,c) => (Index.each (2 + c) s.stride,type)
    s.parts.zipIdx.map fun (part,j) =>
      ⟨{ name := s.name, keys, part },.each (2 + s.depth + j) s.stride,
        if part.isSome then none else some s.value⟩
  moves := if isLast then [] else [("data_idx",.behind 2 s.stride)]

def setter (states : List Stored) : Accessor Load where
  plain := (plainStates states).1.flatMap fun (k,start,s) => (plainLoads start s).map (k,·)
  starts := [("data_idx",.fixed (plainStates states).2),("keys_count",.fixed 0)]
  loops := (mappings states).map fun (k,isLast,s) => (k,keyedLoads isLast s)

/-! ### Texts -/

def partText : Option Nat → String
  | some j => s!"[{j}]"
  | none => ""

def Target.keyTexts (name : String) (t : Target) : List (String × String) :=
  t.keys.map fun (i,type) => (i.text name " + ",type)

def Target.text (array name : String) (t : Target) : String :=
  t.name ++ String.join ((t.keyTexts name).map fun (entry,type) =>
    s!"[abi.decode({array}[{entry}], ({type}))]") ++ partText t.part

/-- The heads of entries are written more closely than keys and values. -/
def Content.plus : Content → String
  | .number _ | .asked (.fixed _) | .asked (.ahead _) => "+"
  | .asked _ | .state _ => " + "

def Store.entryText (s : Store) : String :=
  s.entry.text "os_idx" s.content.plus

def Store.askedText (s : Store) (i : Index) : String :=
  i.text "read_idx" s.content.plus

def Store.valueText (s : Store) : String :=
  match s.content with
  | .number k => "abi.encode(" ++ toString k ++ ")"
  | .asked i => "read[" ++ s.askedText i ++ "]"
  | .state t =>
    let place := t.text "read" "read_idx"
    if t.part.isSome then place else "abi.encode(" ++ place ++ ")"

/-- The value of a plain state ends no line. -/
def Store.ending (s : Store) : String :=
  match s.content with
  | .state t => if t.part.isNone && t.keys.isEmpty then ";" else ";\n"
  | _ => ";\n"

def Store.text (s : Store) : String :=
  "oldStates[" ++ s.entryText ++ "] = " ++ s.valueText ++ s.ending

def Load.entryText (l : Load) : String :=
  l.entry.text "data_idx" (if l.type.isSome then " + " else " +")

def Load.valueText (l : Load) : String :=
  match l.type with
  | some type => "abi.decode(data[" ++ l.entryText ++ "], (" ++ type ++ "))"
  | none => "data[" ++ l.entryText ++ "]"

def Load.text (l : Load) : String :=
  l.target.text "data" "data_idx" ++ " = " ++ l.valueText ++
    (if l.type.isNone && l.target.keys.isEmpty then " ;\n" else ";\n")

def Loop.countText {α : Type} (name : String) (l : Loop α) : String :=
  l.count.text name " + "

/-- What a running index gets, where it starts and where it is moved on. -/
def settingText (setting : String × Index) : String :=
  setting.2.text setting.1 " + "

def line (margin : Nat) (text : String) : String :=
  String.ofList (List.replicate margin ' ') ++ text

def Loop.text {α : Type} (array name : String) (stepText : α → String) (l : Loop α) : String :=
  String.join (l.header.map stepText) ++ String.intercalate "\n" [
    "",
    line 20 ("keys_count = abi.decode(" ++ array ++ "[" ++ l.countText name ++ "], (uint));"),
    line 20 "for (uint i = 0; i < keys_count; i = i + 1) \x7b",
    line 24 (String.join (l.body.map stepText)),
    line 20 "\x7d",
    line 16 ""] ++
    String.join (l.moves.map fun move => move.1 ++ " = " ++ settingText move ++ ";\n")

def Accessor.lines {α : Type} (array name : String) (margin : Nat) (stepText : α → String) (a : Accessor α) :
    List String :=
  line margin (String.join (a.plain.map fun step => stepText step.2)) ::
    (a.starts.map fun start => line margin ("uint " ++ start.1 ++ " = " ++ settingText start ++ ";")) ++
    [line margin (String.join (a.loops.map fun loop => loop.2.text array name stepText))]

def getterText (a : Accessor Store) : String :=
  String.intercalate "\n" ([
    "",
    line 12 "function get_states(bytes[] memory read, uint return_len) public returns (bytes[] memory) \x7b",
    line 16 "bytes[] memory oldStates = new bytes[](return_len);"] ++
    a.lines "read" "read_idx" 16 Store.text ++ [
    line 16 "return oldStates;",
    line 12 "\x7d",
    line 8 ""])

def guards : String :=
  String.intercalate "\n" [
    "",
    line 16 "require(msg.sender == tee_addr, 'msg.sender is not tee');",
    line 16 "require(proof[0] == teeCHash, 'code hash error');",
    line 16 "require(proof[1] == teePHash, 'policy hash error');",
    line 16 "uint256 osHash = uint256(keccak256(abi.encode(get_states(read, old_states_len))));",
    line 16 "require(proof[2] == osHash, 'old states hash error');",
    line 12 ""]

def guardedParameters : String :=
  "bytes[] memory read, uint old_states_len, bytes[] memory data, uint[] memory proof"

def setterText (isPublic : Bool) (a : Accessor Load) : String :=
  let parameters := if isPublic then guardedParameters else "bytes[] memory data"
  String.intercalate "\n" ([
    "",
    line 8 ("function set_states(" ++ parameters ++ ") public \x7b"),
    line 12 (if isPublic then guards else "")] ++
    a.lines "data" "data_idx" 12 Load.text ++ [
    line 8 "\x7d",
    line 8 ""])

/-! ### From a policy and a contract -/

def stateTypes (contract : Node) : List (String × Node) :=
  contract.stateVariables.reverse.filterMap fun v =>
    match v with
    | .stateVariable _ (.annotated _ type _ _) _ (.identifier _ name) _ _ => some (name,type)
    | _ => none

def Ownership.isPublic : Ownership → Bool
  | .single owner => owner == "all"
  | .perKey _ _ => false

def stored (contract : Node) (isPublic : Bool) (states : List StateEntry) : Outcome (List Stored) := do
  let types := stateTypes contract
  states.mapM fun s => do
    let name ← match s.name with
      | some name => pure name
      | none => .error .unknownKey
    let type ← match types.lookup name with
      | some type => pure type
      | none => .error .unknownKey
    let (_,keys,value) := type.split
    return { name, type := ← type.code {}, keys := ← keys.mapM (·.code {}), value := ← value.code {}
             isCipher := isPublic && !Ownership.isPublic s.ownership }

def functions (contract : Node) (isPublic : Bool) (states : List StateEntry) : Outcome (List Node) := do
  let states ← stored contract isPublic states
  return [← Source.piece (getterText (getter states)),← Source.piece (setterText isPublic (setter states))]

end Confidential.Accessors
