import Confidential.Program

/-!
The things that descriptions of nodes are made of.
-/

namespace Confidential

/-- A thing in a description: a node, with nothing and plain data among the nodes, a list, a privacy, or
something of which only the kind is told. -/
inductive Item where
  | node (n : Node)
  | list (items : List Item)
  | privacy (p : Privacy)
  | other (kind : String)

namespace Item

def null : Item :=
  .node .omitted

def text (s : String) : Item :=
  .node (.plain (.text s))

def bool (b : Bool) : Item :=
  .node (.plain (.bool b))

def int (n : Int) : Item :=
  .node (.plain (.int n))

def nodes (ns : List Node) : Item :=
  .list (ns.map .node)

def texts (ss : List String) : Item :=
  .list (ss.map .text)

def optionalText : Option String → Item
  | some s => .text s
  | none => .null

def optionalNodes : Option (List Node) → Item
  | some ns => .nodes ns
  | none => .null

def isNull : Item → Bool
  | .node .omitted => true
  | _ => false

def toNode : Item → Node
  | .node n => n
  | .privacy p => .plain (.int p.rank)
  | .list _ => .plain (.list [])
  | .other _ => .plain (.record [])

def toText : Item → Outcome String
  | .node (.plain (.text s)) => .ok s
  | _ => .error .misused

def toText? : Item → Outcome (Option String)
  | .node .omitted => .ok none
  | i => some <$> i.toText

def toFlag : Item → Bool
  | .node .omitted | .node (.plain (.bool false)) | .node (.plain (.int 0)) | .list [] => false
  | .node (.plain (.text s)) => !s.isEmpty
  | _ => true

def toInt : Item → Outcome Int
  | .node (.plain (.int n)) => .ok n
  | .node (.plain (.bool b)) => .ok (if b then 1 else 0)
  | _ => .error .misused

def toNodes : Item → Outcome (List Node)
  | .list items => .ok (items.map toNode)
  | .node .omitted => .ok []
  | _ => .error .misused

def toTexts : Item → Outcome (List String)
  | .list items => items.mapM toText
  | .node .omitted => .ok []
  | _ => .error .misused

end Item

end Confidential
