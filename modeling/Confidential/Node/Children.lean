import Confidential.Node

/-!
The pieces of a node, the pieces that the analyses visit, and the nodes of a tree in order.
-/

namespace Confidential.Node

def parts : Node → List Node
  | .omitted | .plain _ | .general _ _ | .identifier _ _ | .comment _ _ | .blankLine _
  | .builtin _ _ | .truth _ _ | .number _ _ _ _ _ | .text _ _ | .owner _ _ | .breakLoop _
  | .continueLoop _ | .assembly _ _ | .elementary _ _ | .override _ _ | .pragma _ _ _ => []
  | .namedArgument _ _ a | .metaType _ a | .create _ a | .name _ a | .returnValue _ a
  | .expressionStatement _ a | .invocation _ _ a | .enumValue _ a | .using _ _ a
  | .inheritance _ _ a => [a]
  | .cast _ a b _ | .member _ a b | .index _ a b | .reveal _ a b | .whileLoop _ a b
  | .doWhileLoop _ a b | .emit _ a b | .revert _ a b | .require _ a b _ | .assign _ _ a b _
  | .variableStatement _ a b | .arrayType _ a b | .annotated _ a _ b | .valueType _ a b
  | .errorParameter _ a b | .eventParameter _ a _ b | .slice _ a b _ _ | .call _ a b _
  | .declaration _ _ _ a b _ | .importFile _ _ a b => [a,b]
  | .range _ a b c | .branch _ a b c | .mapping _ a b c => [a,b,c]
  | .forLoop _ a b c d | .stateVariable _ a _ b c d => [a,b,c,d]
  | .arguments _ as _ | .arrayLiteral _ _ as | .tuple _ as | .inlineArray _ as
  | .statements _ _ as | .userType _ _ as | .tupleType _ as => as
  | .callOptions _ a as | .enum _ a as | .event _ a as _ | .error _ a as | .struct _ a as
  | .library _ a as => a :: as
  | .variablesStatement _ as b => as ++ [b]
  | .catchClause _ a as b => a :: as ++ [b]
  | .tryCall _ a as b bs => a :: as ++ b :: bs
  | .functionType _ as bs cs => as.getD [] ++ bs ++ cs.getD []
  | .function _ a as bs cs d _ => a :: as.getD [] ++ bs ++ cs ++ [d]
  | .modifier _ a as _ bs c => a :: as ++ bs ++ [c]
  | .contract _ a as bs cs => a :: as ++ bs ++ cs
  | .interface _ a as bs => a :: as ++ bs
  | .source _ as bs c => as ++ bs ++ [c]

def isPlain : Node → Bool
  | .plain _ => true
  | _ => false

def isIdentifier : Node → Bool
  | .identifier _ _ => true
  | _ => false

/-- The places that the analyses visit, in their order. -/
def visited : Node → List Node
  | .callOptions _ _ _ | .metaType _ _ | .inlineArray _ _ | .range _ _ _ _ | .slice _ _ _ _ _
  | .catchClause _ _ _ _ | .tryCall _ _ _ _ _ | .revert _ _ _ | .userType _ _ _ | .tupleType _ _
  | .variablesStatement _ _ _ | .importFile _ _ _ _ => []
  | .require _ a _ _ => [a]
  | .mapping _ a b c => if b.isIdentifier then [a,b,c] else [a,c]
  | .functionType _ as _ cs => as.getD [] ++ cs.getD []
  | .function _ a as bs cs d _ => a :: as.getD [] ++ bs.filter (!·.isPlain) ++ cs ++ [d]
  | .stateVariable _ a _ b c _ => [a,b,c]
  | .contract _ a as _ _ => a :: as
  | .interface _ _ as bs => as ++ bs
  | .library _ _ as => as
  | .source _ as _ _ => as
  | n => n.parts

def children (n : Node) : List Node :=
  n.visited.filter (!·.isOmitted)

/-- A function whose parameters were left out altogether cannot be walked through. -/
def lacksParameters : Node → Bool
  | .functionType _ as _ cs => as.isNone || cs.isNone
  | .function _ _ as _ _ _ _ => as.isNone
  | _ => false

def ensureWalkable (n : Node) : Outcome Unit :=
  if n.lacksParameters then .error .misused
  else if n.isPlain then .error .absent
  else .ok ()

theorem mem_parts_of_mem_visited {c n : Node} (h : c ∈ n.visited) : c ∈ n.parts := by
  unfold visited at h
  split at h <;> first | exact h | skip
  all_goals simp_all [parts]
  all_goals grind

theorem part_of_child {c n : Node} (h : c ∈ n.children) : c ∈ n.parts :=
  mem_parts_of_mem_visited (List.mem_filter.1 h).1

theorem sizeOf_lt_part {c n : Node} (h : c ∈ n.parts) : sizeOf c < sizeOf n := by
  have inList : ∀ {as : List Node}, c ∈ as → sizeOf c < sizeOf as := List.sizeOf_lt_of_mem
  have inOption : ∀ {as : Option (List Node)}, c ∈ as.getD [] → sizeOf c < sizeOf as := by
    intro as h
    cases as with
    | none => simp at h
    | some as =>
      have := inList (show c ∈ as from h)
      simp
      omega
  cases n <;> simp only [parts,List.mem_cons,List.mem_append,List.not_mem_nil,or_false,
    List.cons_append] at h <;> simp <;> grind

theorem sizeOf_lt_child {c n : Node} (h : c ∈ n.children) : sizeOf c < sizeOf n :=
  sizeOf_lt_part (part_of_child h)

def preorder (n : Node) : List Node :=
  n :: n.children.attach.flatMap fun ⟨c,_⟩ => c.preorder
termination_by sizeOf n
decreasing_by exact sizeOf_lt_child (by assumption)

def subtrees (n : Node) : List Node :=
  n :: n.parts.attach.flatMap fun ⟨c,_⟩ => c.subtrees
termination_by sizeOf n
decreasing_by exact sizeOf_lt_part (by assumption)

end Confidential.Node
