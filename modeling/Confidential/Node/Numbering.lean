import Confidential.Node.Children

/-!
Trees with other parts: numbering the nodes of a tree, and changing the node of a given number.
-/

namespace Confidential.Node

def withParts (n : Node) (ps : List Node) : Node :=
  let p := fun (k : Nat) => ps.getD k .omitted
  let q := ps.drop 1
  match n with
  | .namedArgument i key _ => .namedArgument i key (p 0)
  | .metaType i _ => .metaType i (p 0)
  | .create i _ => .create i (p 0)
  | .name i _ => .name i (p 0)
  | .returnValue i _ => .returnValue i (p 0)
  | .expressionStatement i _ => .expressionStatement i (p 0)
  | .invocation i path _ => .invocation i path (p 0)
  | .enumValue i _ => .enumValue i (p 0)
  | .using i path _ => .using i path (p 0)
  | .inheritance i path _ => .inheritance i path (p 0)
  | .cast i _ _ implicit => .cast i (p 0) (p 1) implicit
  | .member i _ _ => .member i (p 0) (p 1)
  | .index i _ _ => .index i (p 0) (p 1)
  | .reveal i _ _ => .reveal i (p 0) (p 1)
  | .whileLoop i _ _ => .whileLoop i (p 0) (p 1)
  | .doWhileLoop i _ _ => .doWhileLoop i (p 0) (p 1)
  | .emit i _ _ => .emit i (p 0) (p 1)
  | .revert i _ _ => .revert i (p 0) (p 1)
  | .require i _ _ written => .require i (p 0) (p 1) written
  | .assign i toCircuit _ _ op => .assign i toCircuit (p 0) (p 1) op
  | .variableStatement i _ _ => .variableStatement i (p 0) (p 1)
  | .arrayType i _ _ => .arrayType i (p 0) (p 1)
  | .annotated i _ written _ => .annotated i (p 0) written (p 1)
  | .valueType i _ _ => .valueType i (p 0) (p 1)
  | .errorParameter i _ _ => .errorParameter i (p 0) (p 1)
  | .eventParameter i _ indexed _ => .eventParameter i (p 0) indexed (p 1)
  | .slice i _ _ start size => .slice i (p 0) (p 1) start size
  | .call i _ _ options => .call i (p 0) (p 1) options
  | .declaration i kind keywords _ _ storage => .declaration i kind keywords (p 0) (p 1) storage
  | .importFile i path _ _ => .importFile i path (p 0) (p 1)
  | .range i _ _ _ => .range i (p 0) (p 1) (p 2)
  | .branch i _ _ _ => .branch i (p 0) (p 1) (p 2)
  | .mapping i _ _ _ => .mapping i (p 0) (p 1) (p 2)
  | .forLoop i _ _ _ _ => .forLoop i (p 0) (p 1) (p 2) (p 3)
  | .stateVariable i _ keywords _ _ _ => .stateVariable i (p 0) keywords (p 1) (p 2) (p 3)
  | .arguments i _ named => .arguments i ps named
  | .arrayLiteral i isKey _ => .arrayLiteral i isKey ps
  | .tuple i _ => .tuple i ps
  | .inlineArray i _ => .inlineArray i ps
  | .statements i kind _ => .statements i kind ps
  | .userType i kind _ => .userType i kind ps
  | .tupleType i _ => .tupleType i ps
  | .callOptions i _ _ => .callOptions i (p 0) q
  | .enum i _ _ => .enum i (p 0) q
  | .event i _ _ anonymous => .event i (p 0) q anonymous
  | .error i _ _ => .error i (p 0) q
  | .struct i _ _ => .struct i (p 0) q
  | .library i _ _ => .library i (p 0) q
  | .variablesStatement i as _ => .variablesStatement i (ps.take as.length) (p as.length)
  | .catchClause i _ as _ => .catchClause i (p 0) (q.take as.length) (q.getD as.length .omitted)
  | .tryCall i _ as _ _ =>
    .tryCall i (p 0) (q.take as.length) (q.getD as.length .omitted) (q.drop (as.length + 1))
  | .functionType i as bs cs =>
    let k := (as.getD []).length
    .functionType i (as.map fun _ => ps.take k) ((ps.drop k).take bs.length)
      (cs.map fun _ => ps.drop (k + bs.length))
  | .function i _ as bs cs _ kind =>
    let k := (as.getD []).length
    .function i (p 0) (as.map fun _ => q.take k) ((q.drop k).take bs.length)
      ((q.drop (k + bs.length)).take cs.length) (q.getD (k + bs.length + cs.length) .omitted) kind
  | .modifier i _ as virtual bs _ =>
    .modifier i (p 0) (q.take as.length) virtual ((q.drop as.length).take bs.length)
      (q.getD (as.length + bs.length) .omitted)
  | .contract i _ as bs _ =>
    .contract i (p 0) (q.take as.length) ((q.drop as.length).take bs.length)
      (q.drop (as.length + bs.length))
  | .interface i _ as _ => .interface i (p 0) (q.take as.length) (q.drop as.length)
  | .source i as bs _ =>
    .source i (ps.take as.length) ((ps.drop as.length).take bs.length) (p (as.length + bs.length))
  | n => n

theorem withParts_parts (n : Node) : n.withParts n.parts = n := by
  cases n with
  | functionType i as bs cs => cases as <;> cases cs <;> simp [parts,withParts]
  | function i a as bs cs d kind =>
    cases as <;> simp [parts,withParts,List.getD_eq_getElem?_getD,Nat.add_assoc,List.getElem?_cons]
  | _ => simp [parts,withParts,List.getD_eq_getElem?_getD]

def visitedPlaces : Node → List Bool
  | .callOptions _ a as => (a :: as).map fun _ => false
  | .metaType _ _ => [false]
  | .inlineArray _ as | .userType _ _ as | .tupleType _ as => as.map fun _ => false
  | .range _ _ _ _ => [false,false,false]
  | .slice _ _ _ _ _ | .revert _ _ _ | .importFile _ _ _ _ => [false,false]
  | .catchClause _ a as b => (a :: as ++ [b]).map fun _ => false
  | .tryCall _ a as b bs => (a :: as ++ b :: bs).map fun _ => false
  | .variablesStatement _ as b => (as ++ [b]).map fun _ => false
  | .require _ _ _ _ => [true,false]
  | .mapping _ _ b _ => [true,b.isIdentifier,true]
  | .functionType _ as bs cs =>
    ((as.getD []).map fun _ => true) ++ (bs.map fun _ => false) ++ ((cs.getD []).map fun _ => true)
  | .function _ _ as bs cs _ _ =>
    true :: ((as.getD []).map fun _ => true) ++ (bs.map (!·.isPlain)) ++ (cs.map fun _ => true) ++ [true]
  | .stateVariable _ _ _ _ _ _ => [true,true,true,false]
  | .contract _ _ as bs cs => true :: (as.map fun _ => true) ++ ((bs ++ cs).map fun _ => false)
  | .interface _ _ as bs => false :: ((as ++ bs).map fun _ => true)
  | .library _ _ as => false :: (as.map fun _ => true)
  | .source _ as bs _ => (as.map fun _ => true) ++ (bs.map fun _ => false) ++ [false]
  | n => n.parts.map fun _ => true

def mapVisited {m : Type → Type} [Monad m] (n : Node) (f : (c : Node) → c ∈ n.parts → m Node) : m Node := do
  let ps ← (n.parts.attach.zip n.visitedPlaces).mapM fun (⟨c,h⟩,isVisited) =>
    if isVisited && !c.isOmitted then f c h else pure c
  return n.withParts ps

def isLeaflet : Node → Bool
  | .omitted | .plain _ => true
  | _ => false

/-- Gives numbers, counted up from the state, to the nodes that have none. -/
def numbered (n : Node) : StateM Nat Node := do
  if n.isLeaflet || n.id ≠ 0 then return n
  let k ← get
  set (k + 1)
  let ps ← n.parts.attach.mapM fun ⟨c,_⟩ => numbered c
  return (n.withParts ps).withInfo { n.info with id := k }
termination_by sizeOf n
decreasing_by exact sizeOf_lt_part (by assumption)

def update (k : Nat) (f : Node → Node) (n : Node) : Node :=
  if n.id = k && !n.isLeaflet then f n
  else n.withParts (n.parts.attach.map fun ⟨c,_⟩ => update k f c)
termination_by sizeOf n
decreasing_by exact sizeOf_lt_part (by assumption)

end Confidential.Node
