import Confidential.Description.Item
import Confidential.Program.Building
import Confidential.Typing.Equality

/-!
Looking at single nodes of a program.
-/

namespace Confidential

namespace Program

def current (p : Program) (n : Node) : Node :=
  let m := p.node n.id
  if m.isOmitted then n else m

mutual

def shown (p : Program) : Item → Answer
  | .node .omitted => .null
  | .node (.plain (.record _)) => .text "dict"
  | .node (.plain v) => .value v
  | .node n =>
    let n := p.current n
    .list [.text n.label,.of .text (p.code n)]
  | .list items => .list (p.shownAll items)
  | .privacy privacy => .int privacy.rank
  | .other kind => .text kind

def shownAll (p : Program) : List Item → List Answer
  | [] => []
  | i :: is => p.shown i :: p.shownAll is

end

/-- The node of a kind with this number, in the order of the source. Numbers below zero count from the
end. -/
def nth (p : Program) (kind : String) (k : Int) : Outcome Node :=
  Report.entry (p.tree.preorder.filter (·.label == kind)) k

end Program

namespace Node

def loopSteps : Node → Outcome (List Node)
  | .forLoop _ start condition update body => .ok [start,condition,body,update]
  | _ => .error .absent

def entryAt (n : Node) (k : Int) : Outcome Node :=
  match n with
  | .statements _ _ body => Report.entry body k
  | .tupleType _ types => Report.entry types k
  | _ => .error .misused

def componentCount : Node → Outcome Nat
  | .tupleType _ types => .ok types.length
  | _ => .error .misused

end Node

namespace Program

def has (p : Program) (n m : Node) : Outcome Bool :=
  match n with
  | .statements .. => .ok (n.holds fun s => s.id = m.id)
  | .tupleType _ types => types.foldlM (fun found t => if found then .ok true else p.same t m) false
  | _ => .error .misused

def isAround (p : Program) (n m : Node) : Bool :=
  (m :: p.ancestors m).any fun a => a.id = n.id

def isImmutableName (p : Program) (n : Node) : Bool :=
  p.parent? n |>.any fun v => match v with
    | .stateVariable _ _ keywords _ _ _ => keywords.contains "final" || keywords.contains "constant"
    | _ => false

end Program
end Confidential
