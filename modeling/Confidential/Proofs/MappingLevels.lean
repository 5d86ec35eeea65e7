import Confidential.Proofs.Outcome

/-!
How deep mappings are nested: all ways to count the levels agree.
-/

namespace Confidential

open List

/-- A type and its owner, the keys and labels of its mappings from the outside in, the type and owner of the values. -/
inductive Node.Nested : Node → Node → List (Node × Node) → Node → Node → Prop where
  | last {type who : Node} : ¬ (type matches .mapping ..) → Nested type who [] type who
  | level {i j : Info} {key label value within who last owner : Node} {written : Bool} {levels : List (Node × Node)} :
    Nested value within levels last owner →
      Nested (.mapping i key label (.annotated j value written within)) who ((key,label) :: levels) last owner

/-- The innermost level with a label, counted from `first` on, or `none` if there is none. -/
structure IsInnermost (levels : List (Node × Node)) (first none position : Int) : Prop where
  bound (k : Nat) (key label : Node) : levels[k]? = some (key,label) → Ownership.hasLabel label → first + k ≤ position
  taken : position = none ∨
    ∃ (k : Nat) (key label : Node), levels[k]? = some (key,label) ∧ Ownership.hasLabel label ∧ position = first + k

namespace Node.Nested

variable {type who last owner : Node} {levels : List (Node × Node)}

theorem counted (h : Nested type who levels last owner) :
    type.mappingDepth = levels.length ∧ type.split = (levels.length,levels.map Prod.fst,last) := by
  induction h with
  | @last type who plain => cases type <;> first | exact ⟨rfl,rfl⟩ | exact absurd rfl plain
  | level _ ih =>
    rw [mappingDepth,split,ih.1,ih.2]
    exact ⟨rfl,rfl⟩

theorem depth_plain (plain : ¬ (type matches .mapping ..)) : Outcome.Yields (·.depth = 0) (Shape.ofType type) := by
  have named (x : Outcome String) : Outcome.Yields (·.depth = 0) (Shape.named <$> x) :=
    .map (fun _ _ => trivial) fun _ _ => rfl
  unfold Shape.ofType
  split
  · split
    · exact .ok rfl
    · split
      · exact .ok rfl
      · exact named _
  · exact absurd rfl plain
  · exact absurd rfl plain
  · exact .ok rfl
  · exact .skip fun _ => .pure rfl
  · refine .skip fun _ => .skip fun _ => ?_
    split
    · exact .pure rfl
    · exact .error
  iterate 4 exact named _
  exact .error

theorem depth_shape (h : Nested type who levels last owner) {shape : Shape} (formed : Shape.ofType type = .ok shape) :
    shape.depth = levels.length := by
  induction h generalizing shape with
  | last plain => exact depth_plain plain shape formed
  | level _ ih =>
    rw [Shape.ofType] at formed
    obtain ⟨k,-,formed⟩ := bind_ok.1 formed
    obtain ⟨v,inner,formed⟩ := bind_ok.1 formed
    split at formed <;> cases formed
    exact congrArg (· + 1) (ih inner)

theorem below_eq (h : Nested type who levels last owner) (i : Info) (written : Bool) {first void : Int} (less : void < first) :
    ∃ position, IsInnermost levels first void position ∧ Ownership.below first void (.annotated i type written who) = do
      let name ← owner.code {}
      return if name == "all" then .single name else .perKey name position := by
  induction h generalizing i written first void with
  | @last type who plain =>
    refine ⟨void,⟨by simp,.inl rfl⟩,?_⟩
    cases type <;> first | rfl | exact absurd rfl plain
  | @level _ j key label _ _ _ _ _ within levels _ ih =>
    obtain ⟨position,⟨bound,taken⟩,eq⟩ := @ih j within (first + 1) (if Ownership.hasLabel label then first else void)
      (by split <;> omega)
    refine ⟨position,⟨?_,?_⟩,eq⟩
    · rintro (- | k) _ _ found labelled
      · cases found
        rw [if_pos labelled] at taken
        obtain rfl | ⟨k,_,_,-,-,rfl⟩ := taken <;> omega
      · have := bound k _ _ found labelled
        omega
    · obtain same | ⟨k,key',label',found,labelled,rfl⟩ := taken
      · split at same
        · exact .inr ⟨0,key,label,rfl,by assumption,by omega⟩
        · exact .inl same
      · exact .inr ⟨k + 1,key',label',found,labelled,by omega⟩

end Node.Nested

theorem mapping_levels_agree {type who last owner : Node} {levels : List (Node × Node)}
    (nested : type.Nested who levels last owner) :
    type.mappingDepth = levels.length ∧ type.split = (levels.length,levels.map Prod.fst,last) ∧
      (levels ≠ [] → ∀ shape, Shape.ofType type = .ok shape → ∃ key value, shape = .mapping key value levels.length) ∧
      (levels ≠ [] → ∀ i written, ∃ position, IsInnermost levels 0 (-1) position ∧
        Ownership.ofType (.annotated i type written who) = do
          let name ← owner.code {}
          return if name == "all" then .single name else .perKey name position) := by
  refine ⟨nested.counted.1,nested.counted.2,fun full shape formed => ?_,fun full i written => ?_⟩
  · have depth := nested.depth_shape formed
    cases shape with
    | mapping key value => exact ⟨key,value,congrArg _ depth⟩
    | _ => exact absurd (length_eq_zero_iff.1 depth.symm) full
  · obtain ⟨position,innermost,eq⟩ := nested.below_eq i written (show (-1 : Int) < 0 by decide)
    refine ⟨position,innermost,?_⟩
    cases nested with
    | last => contradiction
    | level => exact eq

/-- Mappings in a mapping. -/
def doublyKeyed : Node :=
  .mapping {} Node.uintType (.identifier {} "a") (.annotated {} (.mapping {} Node.uintType .omitted
    (.annotated {} Node.uintType true .omitted)) false .omitted)

theorem doublyKeyed_shape : ∃ key value, Shape.ofType doublyKeyed = .ok (.mapping key value 2) := by
  have nested : doublyKeyed.Nested .omitted _ _ _ := .level (.level (.last (by simp [Node.uintType])))
  obtain ⟨key,value,eq⟩ := (mapping_levels_agree nested).2.2.1 (by simp) _ rfl
  exact ⟨key,value,congrArg _ eq⟩

end Confidential
