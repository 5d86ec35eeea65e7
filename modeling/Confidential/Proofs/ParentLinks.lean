import Confidential.Proofs.LinkedSource

/-!
The places of the nodes of a source. Each node is reached in one way, and what is recorded about it is what
is met on this way.
-/

namespace Confidential

open List Node Pass

/-- The names of the definitions among these nodes, from the outside in. The nodes are listed from the
inside out. -/
def definitionNames (around : List Node) : List Nat :=
  ((around.reverse.filter (·.isNamespace)).filterMap (·.ownName?)).map (·.id)

theorem definitionNames_cons (n : Node) (around : List Node) : definitionNames (n :: around) =
    definitionNames around ++ if n.isNamespace then (n.ownName?.map (·.id)).toList else [] := by
  unfold definitionNames
  rw [reverse_cons,filter_append,filterMap_append,map_append]
  cases named : n.isNamespace with
  | false => simp [named]
  | true => cases own : n.ownName? <;> simp [named,own]

variable {root m : Node} {around : List Node}

theorem Node.Path.namespaceWith_eq (path : Path root around m) (proper : root.Proper) (source : root.isSource) :
    (Place.within around).namespaceWith m = some (definitionNames (m :: around)) := by
  induction path with
  | root =>
    have plain : root.isNamespace = false := by cases root <;> first | rfl | cases source
    rw [Place.namespaceWith,if_pos source,definitionNames_cons,plain]
    rfl
  | @child around n c outer hc ih =>
    -- A source stands in no other node.
    have inner : c.isSource = false := by
      rw [Bool.eq_false_iff,Ne,isSource_iff]
      intro role
      have allowed := (isProper_iff.1 (outer.proper proper)).1 c (part_of_child hc)
      rw [role] at allowed
      revert allowed
      cases n.role <;> decide
    rw [Place.namespaceWith,inner,definitionNames_cons c]
    change (if false then _ else if c.isNamespace then some (((Place.within around).namespaceWith n).getD [] ++ _)
      else (Place.within around).namespaceWith n) = _
    rw [ih]
    cases c.isNamespace <;> simp

/-- Every node of the tree is reached in one way, and has a place in the program according to this way. -/
structure Situated (p : Program) (root : Node) : Prop where
  unique : ∀ around around' m m', Path root around m → Path root around' m' → m.isLeaflet = false →
    m'.isLeaflet = false → m'.id = m.id → m' = m ∧ around' = around
  parent : ∀ n around m, Path root (n :: around) m → m.isLeaflet = false →
    p.parent? m = some n ∧ ∀ n' ∈ root.preorder, m ∈ n'.children → n' = n
  names : ∀ around m, Path root around m → m.isLeaflet = false →
    p.links.namespaces[m.id]? = some (definitionNames (m :: around))
  statement : ∀ around m, Path root around m → m.isExpression → m.isLeaflet = false →
    p.links.statements[m.id]? = (around.find? (·.isStatement)).map (·.id)
  function : ∀ around m, Path root around m → m.isStatement → m.isLeaflet = false →
    p.links.functions[m.id]? = (around.find? (·.isFunction)).map (·.id)

theorem Placed.situated {start p : Program} (h : Placed start p root)
    (names : ∀ around m, Path root around m → m.isLeaflet = false →
      p.links.namespaces[m.id]? = (Place.within around).namespaceWith m) : Situated p root where
  unique _ _ _ _ path path' solid solid' same := h.holds.path_unique path path' solid same solid'
  parent n around m path solid := by
    refine ⟨h.holds.parent?_eq path solid,fun n' hn' hm => ?_⟩
    obtain ⟨around',path',-⟩ := path_of_preorder .root hn'
    have same := (h.holds.path_unique path (path'.child hm) solid rfl solid).2
    exact (cons.inj same).1
  names around m path solid := by
    rw [names around m path solid,path.namespaceWith_eq h.proper (isSource_iff.2 h.source)]
  statement := h.holds.statement
  function := h.holds.function

theorem Registered.getElem?_namespaces {p p' : Program} {n : Node} (h : Registered p n p') (pos : 0 < p.next)
    (path : Path n around m) (solid : m.isLeaflet = false) {names : List Nat}
    (known : (Place.within around).namespaceWith m = some names) (l : Links) :
    ((n.placings {}).foldl (fun l e => l.record e.2 e.1) l).namespaces[m.id]? = some names := by
  rw [Links.foldl_record]
  refine (Links.getElem?_foldl_put (v := some names) (fun e he same => ?_) ⟨_,path.mem_placings,rfl⟩ _).trans rfl
  rw [h.placing_eq pos path.mem_placings he solid same]
  exact known

/-- A variable that holds a function. -/
def functionVariable : String :=
  "contract C\x7bfunction()external x;\x7d"

end Confidential
