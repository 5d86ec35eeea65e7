import Confidential.Proofs.Outcome

/-!
What may stand where in a tree. Every node has a role, and a role admits certain roles directly below it.
-/

namespace Confidential

open Elaboration in
def Elaboration.isReserved (x : String) : Bool :=
  Text.startsWith reservedPrefix x || Text.startsWith ("_" ++ reservedPrefix) x || Text.endsWith reservedSuffix x

/-- What a node is for, as far as the place where it can stand depends on it. -/
inductive Role where
  | empty
  | word
  | label
  | expression
  | arguments
  | typeName
  | type
  | annotated
  | variable
  | parameter
  | variableStatement
  | variablesStatement
  | simpleStatement
  | statement
  | block
  | loop
  | clause
  | mark
  | routine
  | definition
  | item
  | state
  | directive
  | base
  | contract
  | library
  | interface
  | source
  | other
deriving DecidableEq

namespace Role

def steps : List Role :=
  [.variableStatement,.variablesStatement,.simpleStatement,.statement,.block,.loop]

def members : List Role :=
  [.routine,.definition,.state,.directive]

def units : List Role :=
  members ++ [.contract,.library,.interface]

def below : Role → List Role
  | .expression => [.empty,.word,.label,.expression,.arguments,.typeName,.type]
  | .arguments => [.expression,.arguments,.typeName]
  | .typeName => [.label]
  | .type => [.empty,.word,.label,.expression,.typeName,.type,.annotated,.parameter]
  | .annotated => [.expression,.typeName,.type]
  | .variable | .parameter => [.empty,.label,.annotated]
  | .variableStatement | .variablesStatement => [.empty,.variable,.expression,.typeName]
  | .simpleStatement => [.empty,.expression,.arguments,.typeName]
  | .statement => [.empty,.expression,.arguments,.typeName,.parameter,.clause] ++ steps
  | .block => steps
  | .loop => [.empty,.expression,.typeName] ++ steps
  | .clause => [.empty,.label,.parameter] ++ steps
  | .mark => [.arguments]
  | .routine => [.empty,.word,.label,.parameter,.mark] ++ steps
  | .definition => [.label,.variable,.item,.typeName]
  | .item => [.empty,.label,.annotated]
  | .state => [.empty,.label,.annotated,.expression,.typeName]
  | .directive => [.empty,.label,.typeName,.type]
  | .base => [.arguments]
  | .contract | .library => .label :: members
  | .interface => .label :: .base :: members
  | .source => [.empty,.expression,.typeName,.type] ++ steps ++ units
  | .empty | .word | .label | .other => []

end Role

def DeclKind.role : DeclKind → Role
  | .variable => .variable
  | _ => .parameter

def ListKind.role : ListKind → Role
  | .block _ => .block
  | _ => .other

def Info.hasLine (i : Info) : Bool :=
  match i.line with
  | .ofNat _ => true
  | .negSucc k => k == 0

theorem Info.le_line {i : Info} (h : i.hasLine) : -1 ≤ i.line := by
  unfold hasLine at h
  split at h
  next k hk =>
    rw [hk]
    exact Int.le_trans (by decide) (Int.natCast_nonneg k)
  next k hk =>
    rw [beq_iff_eq] at h
    rw [hk,h]
    decide

def Info.isFresh (i : Info) : Bool :=
  i.id == 0 && i.hasLine

namespace Node

def role : Node → Role
  | .omitted => .empty
  | .plain _ => .word
  | .identifier .. => .label
  | .builtin .. | .callOptions .. | .call .. | .metaType .. | .create .. | .cast .. | .truth ..
  | .number .. | .text .. | .arrayLiteral .. | .tuple .. | .inlineArray .. | .name .. | .member ..
  | .index .. | .range .. | .slice .. | .owner .. | .reveal .. => .expression
  | .namedArgument .. | .arguments .. => .arguments
  | .elementary .. | .userType .. => .typeName
  | .mapping .. | .arrayType .. | .tupleType .. | .functionType .. => .type
  | .annotated .. => .annotated
  | .declaration _ kind _ _ _ _ => kind.role
  | .variableStatement .. => .variableStatement
  | .variablesStatement .. => .variablesStatement
  | .expressionStatement .. | .require .. | .assign .. => .simpleStatement
  | .branch .. | .whileLoop .. | .doWhileLoop .. | .breakLoop .. | .continueLoop .. | .tryCall ..
  | .returnValue .. | .emit .. | .revert .. | .assembly .. => .statement
  | .statements _ kind _ => kind.role
  | .forLoop .. => .loop
  | .catchClause .. => .clause
  | .invocation .. | .override .. => .mark
  | .function .. | .modifier .. => .routine
  | .enum .. | .valueType .. | .event .. | .error .. | .struct .. => .definition
  | .enumValue .. | .eventParameter .. | .errorParameter .. => .item
  | .stateVariable .. => .state
  | .using .. | .pragma .. | .importFile .. => .directive
  | .inheritance .. => .base
  | .contract .. => .contract
  | .library .. => .library
  | .interface .. => .interface
  | .source .. => .source
  | .general .. | .comment .. | .blankLine .. => .other

variable {c n : Node}

variable {rs rs' : List Role}

theorem role_mem_steps (h : n.isStatement) (hr : n.role ≠ .other) : n.role ∈ Role.steps := by
  refine List.contains_iff_mem.1 ?_
  cases n with
  | statements i kind => cases kind <;> first | rfl | exact absurd rfl hr
  | _ => first | rfl | cases h | exact absurd rfl hr

theorem isStatement_of_role (h : n.role ∈ Role.steps) : n.isStatement := by
  have h := List.contains_iff_mem.2 h
  cases n with
  | declaration i kind => cases kind <;> cases h
  | _ => first | rfl | cases h

theorem isExpression_of_role (h : n.role = .expression) : n.isExpression := by
  cases n with
  | declaration i kind | statements i kind => cases kind <;> cases h
  | _ => first | rfl | cases h

theorem isSource_iff : n.isSource ↔ n.role = .source := by
  constructor <;> intro h <;> cases n with
  | declaration i kind | statements i kind => cases kind <;> cases h
  | _ => first | rfl | cases h

theorem exists_of_isSource (h : n.isSource) : ∃ i as bs c, n = .source i as bs c := by
  cases n with
  | source i as bs c => exact ⟨i,as,bs,c,rfl⟩
  | _ => cases h

theorem isLeaflet_of {f : Node → Bool} (h : f n) (small : ∀ t, (f .omitted || f (.plain t)) = false) :
    n.isLeaflet = false := by
  simp only [Bool.or_eq_false_iff] at small
  cases n with
  | omitted => simp [(small default).1] at h
  | plain => simp [(small _).2] at h
  | _ => rfl

theorem isOmitted_of {f : Node → Bool} (h : f n) (omitted : f .omitted = false) : n.isOmitted = false := by
  cases n with
  | omitted => simp [omitted] at h
  | _ => rfl

theorem id_eq_zero (h : n.isLeaflet) : n.id = 0 := by
  cases n <;> first | rfl | cases h

theorem parts_eq_nil (h : n.isLeaflet) : n.parts = [] := by
  cases n <;> first | rfl | cases h

theorem role_of_isFunction (h : n.isFunction) : n.role = .routine := by
  cases n <;> first | rfl | cases h

theorem role_of_isContract (h : n.isContract) : n.role = .contract := by
  cases n <;> first | rfl | cases h

def isName : Node → Bool
  | .name .. => true
  | _ => false

/-- Places that are kept for one role. Branches and loops run blocks, and a loop declares variables at
its start only. -/
def keepsPlaces : Node → Bool
  | .name _ a => a.role = .label
  | .mapping _ key label value =>
    key.role = .typeName && (label.role = .empty || label.role = .label) && value.role = .annotated
  | .create _ type => type.role = .typeName || type.role = .type
  | .variableStatement _ decl value => decl.role = .variable && value.role ≠ .variable
  | .branch _ _ yes no => yes.role = .block && (no.role = .empty || no.role = .block)
  | .whileLoop _ _ body | .doWhileLoop _ body _ => body.role = .block
  | .forLoop _ start condition change body =>
    (.empty :: Role.steps).contains start.role && condition.role ≠ .variableStatement &&
      [.empty,.typeName,.simpleStatement].contains change.role && body.role = .block
  | _ => true

theorem role_withInfo (i : Info) (n : Node) : (n.withInfo i).role = n.role := by
  cases n <;> rfl

theorem parts_withInfo (i : Info) (n : Node) : (n.withInfo i).parts = n.parts := by
  cases n <;> rfl

theorem keepsPlaces_withInfo (i : Info) (n : Node) : (n.withInfo i).keepsPlaces = n.keepsPlaces := by
  cases n <;> rfl

theorem info_withInfo (h : n.isLeaflet = false) (i : Info) : (n.withInfo i).info = i := by
  cases n <;> first | rfl | cases h

theorem id_withInfo (h : n.isLeaflet = false) (i : Info) : (n.withInfo i).id = i.id := by
  rw [id,info_withInfo h]

def isProper (n : Node) : Bool :=
  n.parts.all (fun c => n.role.below.contains c.role) && n.keepsPlaces && n.info.hasLine

def Proper (n : Node) : Prop :=
  ∀ m ∈ n.subtrees, m.isProper

def Unnumbered (n : Node) : Prop :=
  ∀ m ∈ n.subtrees, m.id = 0

def isAllowed : Node → Bool
  | .identifier _ x => !Elaboration.isReserved x
  | _ => true

/-- A tree fresh from the source: proper, without numbers and without reserved names. -/
def Raw (n : Node) : Prop :=
  ∀ m ∈ n.subtrees, m.id = 0 ∧ m.isProper ∧ m.isAllowed

theorem subtrees_eq (n : Node) : n.subtrees = n :: n.parts.flatMap subtrees := by
  rw [subtrees]
  simp

theorem mem_subtrees {m : Node} : m ∈ n.subtrees ↔ m = n ∨ ∃ c ∈ n.parts, m ∈ c.subtrees := by
  rw [subtrees_eq]
  simp

theorem self_mem : n ∈ n.subtrees :=
  mem_subtrees.2 (.inl rfl)

theorem proper_iff : n.Proper ↔ n.isProper ∧ ∀ c ∈ n.parts, c.Proper := by
  constructor
  · intro h
    refine ⟨h n self_mem,fun c hc m hm => ?_⟩
    exact h m (mem_subtrees.2 (.inr ⟨c,hc,hm⟩))
  · rintro ⟨h,below⟩ m hm
    obtain rfl | ⟨c,hc,hm⟩ := mem_subtrees.1 hm
    · exact h
    · exact below c hc m hm

theorem raw_iff : n.Raw ↔ (n.id = 0 ∧ n.isProper ∧ n.isAllowed) ∧ ∀ c ∈ n.parts, c.Raw := by
  constructor
  · intro h
    exact ⟨h n self_mem,fun c hc m hm => h m (mem_subtrees.2 (.inr ⟨c,hc,hm⟩))⟩
  · rintro ⟨own,below⟩ m hm
    obtain rfl | ⟨c,hc,hm⟩ := mem_subtrees.1 hm
    · exact own
    · exact below c hc m hm

theorem Raw.proper (h : n.Raw) : n.Proper :=
  fun m hm => (h m hm).2.1

theorem Raw.unnumbered (h : n.Raw) : n.Unnumbered :=
  fun m hm => (h m hm).1

theorem Unnumbered.part (h : n.Unnumbered) (hc : c ∈ n.parts) : c.Unnumbered :=
  fun m hm => h m (mem_subtrees.2 (.inr ⟨c,hc,hm⟩))

theorem isProper_iff :
    n.isProper ↔ (∀ c ∈ n.parts, c.role ∈ n.role.below) ∧ n.keepsPlaces ∧ n.info.hasLine := by
  simp [isProper,and_assoc]

def RawAs (roles : List Role) (n : Node) : Prop :=
  n.Raw ∧ n.role ∈ roles

theorem RawAs.mono (h : n.RawAs rs) (hs : rs ⊆ rs' := by decide) : n.RawAs rs' :=
  ⟨h.1,hs h.2⟩

theorem RawAs.each {ns : List Node} (h : ∀ n ∈ ns, n.RawAs rs) (hs : rs ⊆ rs' := by decide) :
    ∀ n ∈ ns, n.RawAs rs' :=
  fun n hn => (h n hn).mono hs

theorem rawAs_of_parts {r : Role} {ps : List Node} (below : ∀ c ∈ ps, c.RawAs r.below)
    (fresh : n.info.isFresh := by rfl) (places : n.keepsPlaces := by rfl) (hr : n.role = r := by rfl)
    (hps : n.parts = ps := by rfl) (allowed : n.isAllowed := by rfl) : n.RawAs [r] := by
  subst hr hps
  rw [Info.isFresh,Bool.and_eq_true,beq_iff_eq] at fresh
  refine ⟨raw_iff.2 ⟨⟨fresh.1,?_,allowed⟩,fun c hc => (below c hc).1⟩,List.mem_singleton.2 rfl⟩
  exact isProper_iff.2 ⟨fun c hc => (below c hc).2,places,fresh.2⟩

theorem rawAs_placed (h : n.RawAs rs) (line : Nat) (column : Int) :
    (n.placed line column).RawAs rs := by
  obtain ⟨⟨hid,hp,allowed⟩,below⟩ := raw_iff.1 h.1
  rw [isProper_iff] at hp
  rw [placed]
  refine ⟨raw_iff.2 ⟨⟨?_,?_,?_⟩,?_⟩,?_⟩
  · by_cases leaflet : n.isLeaflet
    · cases n <;> first | rfl | cases leaflet
    · rw [id_withInfo (by simpa using leaflet)]
      exact hid
  · rw [isProper_iff,parts_withInfo,role_withInfo,keepsPlaces_withInfo]
    refine ⟨hp.1,hp.2.1,?_⟩
    cases n <;> rfl
  · cases n <;> exact allowed
  · rw [parts_withInfo]
    exact below
  · rw [role_withInfo]
    exact h.2

theorem Raw.part (h : n.Raw) (hc : c ∈ n.parts) : c.RawAs n.role.below :=
  have ⟨⟨_,proper,_⟩,below⟩ := raw_iff.1 h
  ⟨below c hc,(isProper_iff.1 proper).1 c hc⟩

section Made

variable {n a b c : Node} {r : Role} {ra rb rc : List Role}

theorem rawAs_list {ps : List Node} (h : ∀ c ∈ ps, c.RawAs ra) (fresh : n.info.isFresh := by rfl)
    (places : n.keepsPlaces := by rfl) (hr : n.role = r := by rfl) (hps : n.parts = ps := by rfl)
    (sub : ra ⊆ r.below := by decide) (allowed : n.isAllowed := by rfl) : n.RawAs [r] :=
  rawAs_of_parts (fun c hc => (h c hc).mono sub) fresh places hr hps allowed

theorem rawAs_leaf (fresh : n.info.isFresh := by rfl) (places : n.keepsPlaces := by rfl)
    (hr : n.role = r := by rfl) (hps : n.parts = [] := by rfl) (allowed : n.isAllowed := by rfl) : n.RawAs [r] :=
  rawAs_of_parts (by simp) fresh places hr hps allowed

theorem rawAs_identifier {i : Info} {x : String} (allowed : Elaboration.isReserved x = false)
    (fresh : i.isFresh := by rfl) : (Node.identifier i x).RawAs [.label] :=
  rawAs_leaf fresh rfl rfl rfl (by rw [isAllowed,allowed]; rfl)

theorem rawAs_one (ha : a.RawAs ra) (fresh : n.info.isFresh := by rfl) (places : n.keepsPlaces := by rfl)
    (hr : n.role = r := by rfl) (hps : n.parts = [a] := by rfl) (sa : ra ⊆ r.below := by decide) (allowed : n.isAllowed := by rfl) : n.RawAs [r] :=
  rawAs_of_parts (List.forall_mem_singleton.2 (ha.mono sa)) fresh places hr hps allowed

theorem rawAs_two (ha : a.RawAs ra) (hb : b.RawAs rb) (fresh : n.info.isFresh := by rfl)
    (places : n.keepsPlaces := by rfl) (hr : n.role = r := by rfl) (hps : n.parts = [a,b] := by rfl)
    (sa : ra ⊆ r.below := by decide) (sb : rb ⊆ r.below := by decide) (allowed : n.isAllowed := by rfl) : n.RawAs [r] :=
  rawAs_of_parts (List.forall_mem_cons.2 ⟨ha.mono sa,List.forall_mem_singleton.2 (hb.mono sb)⟩) fresh places hr hps allowed

theorem rawAs_three (ha : a.RawAs ra) (hb : b.RawAs rb) (hc : c.RawAs rc) (fresh : n.info.isFresh := by rfl)
    (places : n.keepsPlaces := by rfl) (hr : n.role = r := by rfl) (hps : n.parts = [a,b,c] := by rfl)
    (sa : ra ⊆ r.below := by decide) (sb : rb ⊆ r.below := by decide) (sc : rc ⊆ r.below := by decide) (allowed : n.isAllowed := by rfl) : n.RawAs [r] :=
  rawAs_of_parts (List.forall_mem_cons.2 ⟨ha.mono sa,
    List.forall_mem_cons.2 ⟨hb.mono sb,List.forall_mem_singleton.2 (hc.mono sc)⟩⟩) fresh places hr hps allowed

theorem rawAs_omitted : (Node.omitted).RawAs [.empty] :=
  rawAs_leaf

end Made

end Node
end Confidential
