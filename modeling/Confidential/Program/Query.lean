import Confidential.Program
import Confidential.Report

/-!
Questions to a program: what stands around a node, what its name means, what type it has.
-/

namespace Confidential.Program

variable (p : Program) (n : Node)

def node (k : Nat) : Node :=
  p.nodes.getD k .omitted

def tree : Node :=
  p.node p.root

def parent? : Option Node :=
  (p.links.parents[n.id]?).map p.node

/-- The node around `n`, or an empty place. Bare nodes have none until they are linked. -/
def parent : Outcome Node :=
  match p.parent? n with
  | some m => .ok m
  | none => if n.isBare || n.isLeaflet then .error .absent else .ok .omitted

/-- The nodes around node `k`, from the inside out, at most `fuel` of them. -/
def chain (p : Program) : Nat → Nat → List Node
  | 0, _ => []
  | fuel + 1, k =>
    match p.links.parents[k]? with
    | some j => p.node j :: p.chain fuel j
    | none => []

def ancestors : List Node :=
  p.chain p.next n.id

def names : Outcome (List (String × Nat)) :=
  match p.links.names[n.id]? with
  | some t => .ok t
  | none => if n.isBare || n.isLeaflet then .error .absent else .ok []

/-- What a name, a member access or a named type refers to; an empty place if that is not known. -/
def target : Outcome Node :=
  match p.links.targets[n.id]? with
  | some k => .ok (p.node k)
  | none =>
    match n with
    | .range .. => .error .absent
    | .userType .. => .ok .omitted
    | n => if n.isLocation then .ok .omitted else .error .absent

def statement : Outcome Node :=
  match p.links.statements[n.id]? with
  | some k => .ok (p.node k)
  | none => if n.isExpression && !n.isBare then .ok .omitted else .error .absent

def function : Outcome Node :=
  match p.links.functions[n.id]? with
  | some k => .ok (p.node k)
  | none => if n.isStatement && !n.isBare then .ok .omitted else .error .absent

def publicType (type : Node) : Node :=
  .annotated {} type false (.owner {} .all)

/-- The type of a node. -/
def typeOf : Outcome Node :=
  match p.types[n.id]? with
  | some t => .ok t
  | none =>
    match n with
    | .truth _ b => .ok (publicType (.elementary {} (.boolLiteral (if b then "true" else "false"))))
    | .number _ v _ _ _ => .ok (publicType (.elementary {} (.numberLiteral v)))
    | .text _ _ => .ok (publicType (.elementary {} .string))
    | .declaration _ _ _ type _ _ | .stateVariable _ type _ _ _ _ | .eventParameter _ type _ _
    | .errorParameter _ type _ => .ok type
    | .function _ _ parameters marks results _ _ =>
      .ok (publicType (.functionType {} parameters marks (some results)))
    | .enum .. | .enumValue .. => .ok .omitted
    | n => if n.isExpression && !n.isBare then .ok .omitted else .error .absent

def facts : FunctionFacts :=
  p.functionFacts.getD n.id {}

def isPrivateType : Node → Bool
  | .annotated _ _ _ (.owner _ .all) => false
  | .annotated _ _ _ _ => true
  | _ => false

def style (solidity : Bool) : Style :=
  { solidity, indentation := p.settings.indentation,
    isPrivate := fun k => match p.types[k]? with
      | some t => isPrivateType t
      | none => false }

def code : Outcome String :=
  n.code (p.style false)

def solidity : Outcome String :=
  n.code (p.style true)

def nameText : Outcome String :=
  match n.ownName? with
  | some (.identifier _ t) => .ok t
  | _ => .error .absent

def closest? (f : Node → Bool) (n : Node) : Option Node :=
  (n :: p.ancestors n).find? f

/-- A message about a node, with the place of the node in the source. Nodes outside of a source have
no place. -/
def report (message : String) : Outcome String := do
  let stmt ← if n.isExpression then p.statement n
    else if n.isStatement then .ok n else .ok .omitted
  let fct ← if !stmt.isOmitted then p.function stmt
    else if n.isFunction then .ok n else .ok .omitted
  let inner := if fct.isOmitted then n else fct
  let contract? := p.closest? (·.isContract) inner
  match p.closest? (·.isSource) (contract?.getD n) with
  | none => return "\nerror\n\n" ++ message
  | some root =>
    let lines := if root.id = p.root then p.lines else []
    let contractName ← contract?.mapM nameText
    let functionName ← if fct.isOmitted then pure none else some <$> nameText fct
    let place ← Report.location n.line n.column lines contractName functionName
      (if stmt.isOmitted then none else some stmt.line)
    return "\n" ++ place ++ "\n\n" ++ message

def isAssigned : Node → List Node → Bool
  | _, [] => false
  | n, outer :: rest =>
    match outer with
    | .assign _ _ left _ _ => left.id = n.id
    | .index _ base _ | .member _ base _ => base.id = n.id && isAssigned outer rest
    | .tuple _ _ => isAssigned outer rest
    | _ => false

def isLeftValue : Bool :=
  isAssigned n (p.ancestors n)

/-- Is the innermost assignment around a node entered on its left? The search goes outwards and has to
end at a source. -/
def onLeftSide : Node → List Node → Outcome Bool
  | n, outer :: rest =>
    match n, outer with
    | .source .., _ => .ok false
    | _, .assign _ _ left _ _ => .ok (left.id = n.id)
    | _, _ => onLeftSide outer rest
  | .source .., [] => .ok false
  | _, [] => .error .absent

def isOnLeftSide : Outcome Bool :=
  match n with
  | .assign _ _ left _ _ => .ok (left.id = n.id)
  | n => onLeftSide n (p.ancestors n)

def qualifiedName : Outcome (List Nat) :=
  match n.ownName? with
  | none => .ok []
  | some name =>
    match p.links.namespaces[n.id]? with
    | none => if n.isBare then .error .absent else .error .misused
    | some ns =>
      match ns.getLast? with
      | none => .error .outOfRange
      | some last => .ok (if last = name.id then ns else ns ++ [name.id])

def contracts : List Node :=
  match p.tree with
  | .source _ units _ _ => units.filter (·.isContract)
  | _ => []

end Confidential.Program

namespace Confidential.Node

def isFunctionOf (kind : FunctionKind) : Node → Bool
  | .function _ _ _ _ _ _ k => k == kind
  | _ => false

def units : Node → List Node
  | .contract _ _ us _ _ | .source _ us _ _ => us
  | _ => []

def functions (n : Node) : List Node :=
  n.units.filter (isFunctionOf .function)

def constructors (n : Node) : List Node :=
  n.units.filter (isFunctionOf .constructor)

def isStateVariable : Node → Bool
  | .stateVariable .. => true
  | _ => false

def stateVariables (n : Node) : List Node :=
  n.units.filter isStateVariable

/-- Constructors first, then functions: the order in which the analyses take them. -/
def routines (n : Node) : List Node :=
  n.constructors ++ n.functions

end Confidential.Node

namespace Confidential

def Program.routines (p : Program) : List Node :=
  p.contracts.flatMap (·.routines)

/-- A step of an analysis. What it has found out so far stays known if it fails. -/
abbrev Pass (α : Type) : Type :=
  ExceptT Fault (StateM Program) α

namespace Pass

variable {α : Type}

def ask (f : Program → Outcome α) : Pass α := do
  match f (← get) with
  | .ok a => return a
  | .error e => throw e

def lift {m : Type → Type} [Monad m] (r : Outcome α) : ExceptT Fault m α :=
  ExceptT.mk (pure r)

def ofOutcome (r : Outcome α) : Pass α :=
  lift r

/-- Runs a step to its end; what the step has found out is kept even if it fails. -/
def attempt (step : Pass α) : Pass (Outcome α) :=
  fun p => match step p with
    | (r,p') => (.ok r,p')

def refuse (kind : String → Fault) (n : Node) (message : String) : Pass α := do
  throw (kind (← ask fun p => p.report n message))

/-- Numbers the nodes of a tree that have no numbers yet, and makes them known. -/
def register (n : Node) : Pass Node :=
  modifyGet fun p =>
    let known := p.next
    let (n,next) := n.numbered known
    (n,{ p with next, nodes := n.subtrees.foldl (fun t m =>
      if known ≤ m.id then t.insert m.id m else t) p.nodes })

def updateNode (k : Nat) (f : Node → Node) : Pass Unit :=
  modify fun p => { p with nodes := p.nodes.map fun _ n => n.update k f }

def write (file text : String) : Pass Unit :=
  modify fun p => { p with files := p.files.filter (·.1 != file) ++ [(file,text)] }

def emit (text : String) : Pass Unit :=
  modify fun p => { p with output := p.output ++ text }

def say (level : Int) (line : String) : Pass Unit := do
  if (← get).settings.prints level then emit (line ++ "\n")

def rename (f : Fault → Fault) (step : Pass α) : Pass α := do
  match ← attempt step with
  | .ok a => return a
  | .error e => throw (f e)

def step (name : String) (work : Pass α) : Pass α := do
  say 1 (name ++ "...")
  let a ← work
  say 1 (name ++ " done!")
  return a

end Pass

structure Place where
  parent : Option Nat := none
  /-- The names of the definitions around it, if it is inside of a source or a definition. -/
  enclosing : Option (List Nat) := none
  statement : Option Nat := none
  function : Option Nat := none

namespace Place

def namespaceWith (place : Place) (n : Node) : Option (List Nat) :=
  if n.isSource then some []
  else if n.isNamespace then some (place.enclosing.getD [] ++ ((n.ownName?).map (·.id)).toList)
  else place.enclosing

def inside (place : Place) (n : Node) : Place where
  parent := some n.id
  enclosing := place.namespaceWith n
  statement := if n.isStatement then some n.id else place.statement
  function := if n.isFunction then some n.id else place.function

end Place

namespace Links

def put {α : Type} (t : Table α) (k : Nat) : Option α → Table α
  | some a => t.insert k a
  | none => t

def record (l : Links) (place : Place) (n : Node) : Links :=
  { l with
    parents := put l.parents n.id place.parent
    namespaces := put l.namespaces n.id (place.namespaceWith n)
    statements := if n.isExpression then put l.statements n.id place.statement else l.statements
    functions := if n.isStatement then put l.functions n.id place.function else l.functions }

def recordAll (place : Place) (n : Node) (l : Links) : Outcome Links := do
  if n.lacksParameters then .error .misused
  n.children.attach.foldlM (fun l ⟨c,_⟩ => recordAll (place.inside n) c l) (l.record place n)
termination_by sizeOf n
decreasing_by exact Node.sizeOf_lt_child (by assumption)

end Links

def Pass.linkParents (n : Node) : Pass Unit := do
  let links ← Pass.ask fun p => Links.recordAll {} n p.links
  modify fun p => { p with links }

end Confidential
