import Confidential.Analysis.CallGraph
import Confidential.Description.Assembly

/-!
Places of a node that can be given something new.
-/

namespace Confidential

abbrev Slot : Type :=
  Node → Item → Pass Unit

namespace Slot

def link (change : (Table Nat → Table Nat) → Links → Links) : Slot := fun n i =>
  modify fun p => { p with links := change (fun t =>
    if i.isNull then t.erase n.id else t.insert n.id i.toNode.id) p.links }

def parent : Slot :=
  link fun f l => { l with parents := f l.parents }

def target : Slot :=
  link fun f l => { l with targets := f l.targets }

def statement : Slot :=
  link fun f l => { l with statements := f l.statements }

def function : Slot :=
  link fun f l => { l with functions := f l.functions }

def line : Slot := fun n i => do
  let k ← Pass.ofOutcome i.toInt
  Pass.updateNode n.id fun m => m.placed k m.column

def column : Slot := fun n i => do
  let k ← Pass.ofOutcome i.toInt
  Pass.updateNode n.id fun m => m.placed m.line k

def hidden : Slot := fun n i =>
  modify fun p => { p with hidden := p.hidden.insert n.id i.toFlag }

def privateOperator : Slot := fun n i =>
  modify fun p => { p with privateOperators := p.privateOperators.insert n.id i.toFlag }

def key : Slot := fun n i =>
  modify fun p => { p with keys := p.keys.insert n.id i.toNode.id }

def participants : Slot := fun n i => do
  let people ← Pass.ofOutcome i.toNodes
  Pass.updateFacts n fun facts => { facts with participants := some people }

def privacy : Slot := fun n i =>
  match i with
  | .privacy privacy => Pass.updateFacts n fun facts => { facts with privacy }
  | _ => return ()

def field (name : String) : Slot := fun n i => do
  let m ← Pass.ask fun p => Description.withField (p.style false) n name i
  Pass.updateNode n.id fun _ => m

/-- The type: a field of declarations, and something found out about expressions. -/
def type : Slot := fun n i =>
  match n with
  | .declaration .. | .stateVariable .. | .eventParameter .. | .errorParameter .. =>
    field "annotated_type" n i
  | _ => modify fun p => { p with types := p.types.insert n.id i.toNode }

end Slot
end Confidential
