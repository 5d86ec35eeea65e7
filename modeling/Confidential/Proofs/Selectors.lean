import Confidential.Proofs.EffectOrder
import Confidential.Proofs.ReadOrder
import Confidential.Proofs.SignatureTypes

/-!
Selectors of functions: the hash of a signature that is put together from the entries of the parameters.
-/

namespace Confidential

open List

abbrev SignatureParameter : Type :=
  Option String × SignatureType

def Node.signatureParameter? : Node → Option SignatureParameter
  | .declaration _ .parameter _ (.annotated _ type _ who) label _ =>
    if (who.code {}).toOption.isNone then none
    else match label with
      | .omitted => type.signatureType?.map fun t => (none,t)
      | .identifier _ x => type.signatureType?.map fun t => (some x,t)
      | _ => none
  | _ => none

def Node.ownerText? : Node → Option String
  | .declaration _ _ _ (.annotated _ _ _ who) _ _ => (who.code {}).toOption
  | _ => none

namespace FunctionPolicy

/-- The text whose hash is the selector of a function with these parameters. -/
def hashedSignature (p : Program) (name : String) (ps : List Node) : Outcome String := do
  let es ← ps.foldlM (fun es v => added p .inputs v "" es) []
  return signature name (← (takeConcrete es).2)

/-- The second parameter has no name, or the first one has another name. -/
def Apart (a b : SignatureParameter) : Prop :=
  b.1 = none ∨ a.1 ≠ none ∧ a.1 ≠ b.1

instance : DecidableRel Apart := fun a b =>
  inferInstanceAs (Decidable (b.1 = none ∨ a.1 ≠ none ∧ a.1 ≠ b.1))

/-- No name is used twice or behind a parameter without a name, and every type goes by its own name. -/
def Signable (as : List SignatureParameter) : Prop :=
  as.Pairwise Apart ∧ ∀ a ∈ as, a.2.isPlain = true

instance (as : List SignatureParameter) : Decidable (Signable as) :=
  inferInstanceAs (Decidable (as.Pairwise Apart ∧ ∀ a ∈ as, a.2.isPlain = true))

def EntriesOf (es : List Entry) (as : List SignatureParameter) : Prop :=
  es.map (fun e => (e.name,e.concrete)) = as.map fun a => (a.1,some a.2.spelled)

theorem takeConcrete_of_entriesOf {es : List Entry} {as : List SignatureParameter} (h : EntriesOf es as) :
    (takeConcrete es).2 = .ok (as.map (·.2.spelled)) := by
  induction es generalizing as with
  | nil =>
    obtain rfl := map_eq_nil_iff.1 h.symm
    rfl
  | cons _ _ ih =>
    cases as with
    | nil => cases h
    | cons =>
      obtain ⟨here,rest⟩ := List.cons.inj h
      rw [takeConcrete,(Prod.mk.inj here).2]
      simp only [ih rest]
      rfl

variable {p : Program} {v : Node} {a : SignatureParameter}

theorem signatureParameter?_eq_some (h : v.signatureParameter? = some a) : ∃ i keywords j type written who label storage owner,
    v = .declaration i .parameter keywords (.annotated j type written who) label storage ∧ who.code {} = .ok owner ∧
      SignatureType.IsType a.2.word a.2.lengths type ∧ a.1 = label.identifierText? := by
  unfold Node.signatureParameter? at h
  split at h
  next i keywords j type written who label storage =>
    split at h
    · cases h
    next owned =>
      cases text : who.code {} with
      | error => simp [text,Except.toOption] at owned
      | ok owner =>
        split at h
        · obtain ⟨t,found,rfl⟩ := Option.map_eq_some_iff.1 h
          exact ⟨i,keywords,j,type,written,who,_,storage,owner,rfl,text,Node.isType_of_signatureType? found,rfl⟩
        · obtain ⟨t,found,rfl⟩ := Option.map_eq_some_iff.1 h
          exact ⟨i,keywords,j,type,written,who,_,storage,owner,rfl,text,Node.isType_of_signatureType? found,rfl⟩
        · cases h
  next => cases h

theorem ofType_of_isType {i : Info} {w : String} {ls : List (Option ArrayLength)} {type who : Node} {written : Bool} {owner : String}
    (h : SignatureType.IsType w ls type) (owned : who.code {} = .ok owner) :
    Ownership.ofType (.annotated i type written who) = .ok (.single owner) := by
  have single : Ownership.single <$> who.code {} = .ok (.single owner) := Outcome.map_eq_ok.2 ⟨owner,owned,rfl⟩
  cases h with
  | array => exact single
  | word named => cases type <;> first | exact single | cases named

theorem ok_bind {α β : Type} (a : α) (f : α → Outcome β) : (Except.ok a >>= f) = f a :=
  rfl

theorem newEntry_parameter_eq (untyped : p.types = {}) (typed : v.signatureParameter? = some a) (s : Section) :
    ∃ type owner, SignatureType.IsType a.2.word a.2.lengths type ∧ v.ownerText? = some owner ∧ newEntry p s v = (do
      let e : Entry := { name := a.1, type := some (Text.eraseAnnotations a.2.written) }
      let e ← match s with
        | .outputs => do pure { e with shape := some (← Shape.ofType type) }
        | .inputs => do
          let again ← Source.piece a.2.written
          let shape ← Shape.ofType again
          pure { e with shape := some shape, concrete := some (← again.concreteType.code {}) }
        | _ => pure e
      return { e with ownership := some (.single owner) }) := by
  obtain ⟨i,keywords,j,type,written,who,label,storage,owner,rfl,owned,isType,named⟩ := signatureParameter?_eq_some typed
  refine ⟨type,owner,isType,by rw [Node.ownerText?,owned]; rfl,?_⟩
  have text : type.code {} = .ok a.2.written := (isType.code a.2.known).1
  have declared : annotatedType p (.declaration i .parameter keywords (.annotated j type written who) label storage) =
      .ok (type,.annotated j type written who) := by
    simp [annotatedType,Program.typeOf,untyped]
    rfl
  have single : Ownership.ofType (.annotated j type written who) = .ok (.single owner) := ofType_of_isType isType owned
  have here : Node.declaredName (.declaration i .parameter keywords (.annotated j type written who) label storage) = .ok label := rfl
  unfold newEntry
  simp only [here,ok_bind,Node.isStateVariable,Bool.false_eq_true,if_false,declared,text,single,named]
  rfl

theorem newEntry_parameter (untyped : p.types = {}) (typed : v.signatureParameter? = some a) :
    (∀ e, newEntry p .inputs v = .ok e → a.2.isDecimal ∧ e.name = a.1 ∧ e.concrete = some a.2.spelled) ∧
      (a.2.isDecimal → ∃ e, newEntry p .inputs v = .ok e) := by
  obtain ⟨_,owner,-,-,made⟩ := newEntry_parameter_eq untyped typed .inputs
  obtain ⟨again,exists_again⟩ := a.2.piece_written
  simp only [made,pure_bind]
  constructor
  · intro e h
    obtain ⟨n,piece,h⟩ := bind_ok.1 h
    obtain ⟨shape,described,h⟩ := bind_ok.1 h
    obtain ⟨c,concrete,h⟩ := bind_ok.1 h
    obtain rfl := Except.ok.inj h
    have type := again n piece
    refine ⟨all_eq_true.2 ((type.described_iff a.2.known).1 ⟨shape,described⟩),rfl,?_⟩
    rw [(type.code a.2.known).2] at concrete
    exact congrArg some (Except.ok.inj concrete).symm
  · intro decimal
    obtain ⟨n,piece⟩ := exists_again decimal
    have type := again n piece
    obtain ⟨shape,described⟩ := (type.described_iff a.2.known).2 (all_eq_true.1 decimal)
    exact ⟨_,bind_ok.2 ⟨n,piece,bind_ok.2 ⟨shape,described,
      bind_ok.2 ⟨_,(type.code a.2.known).2,rfl⟩⟩⟩⟩

variable {es es' : List Entry} {as : List SignatureParameter}

variable {vs : List Node} {xs ys : List String}

theorem EntriesOf.concat {e : Entry} (h : EntriesOf es as) (name : e.name = a.1) (concrete : e.concrete = some a.2.spelled) :
    EntriesOf (es ++ [e]) (as ++ [a]) := by
  rw [EntriesOf,map_append,map_append,h]
  simp [name,concrete]

theorem EntriesOf.forall_name {q : Option String → Prop} (h : EntriesOf es as) : (∀ e ∈ es, q e.name) ↔ ∀ a ∈ as, q a.1 := by
  have names := congrArg (List.map Prod.fst) h
  rw [map_map,map_map] at names
  have names : es.map (·.name) = as.map (·.1) := names
  rw [← forall_mem_map (f := fun e : Entry => e.name) (P := q),names,forall_mem_map]

theorem added_parameter_eq (typed : v.signatureParameter? = some a) (s : Section) (es : List Entry) : added p s v "" es = (do
    match ← (match a.1 with | some x => findName x es | none => .ok none) with
    | some _ => return es
    | none => return es ++ [← newEntry p s v]) := by
  obtain ⟨i,keywords,j,type,written,who,label,storage,owner,rfl,-,-,named⟩ := signatureParameter?_eq_some typed
  generalize whole : Node.declaration i .parameter keywords (.annotated j type written who) label storage = v
  have plain (k : Nat) (es : List Entry) : keyed p v "" k es = .ok es := by
    subst whole
    rfl
  have search : entryFor? v es = (match a.1 with | some x => findName x es | none => .ok none) := by
    subst whole
    rw [named]
    cases label <;> rfl
  rw [← search,added,entered,bind_assoc]
  refine congrArg _ (funext fun found => ?_)
  cases found with
  | some k => exact plain k es
  | none => cases made : newEntry p s v <;> simp [bind,Except.bind,pure,Except.pure,plain]

theorem added_parameter_iff (typed : v.signatureParameter? = some a) : added p .inputs v "" es = .ok es' ↔
    (∃ x k, a.1 = some x ∧ findName x es = .ok (some k) ∧ es' = es) ∨
      (∀ x, a.1 = some x → findName x es = .ok none) ∧ ∃ e, newEntry p .inputs v = .ok e ∧ es' = es ++ [e] := by
  rw [added_parameter_eq typed]
  cases a.1 with
  | none => cases newEntry p .inputs v <;> simp [bind,Except.bind,pure,Except.pure,eq_comm]
  | some x =>
    rcases found : findName x es with fault | _ | k <;> cases newEntry p .inputs v <;>
      simp [bind,Except.bind,pure,Except.pure,found,eq_comm]

theorem added_parameter (untyped : p.types = {}) (typed : v.signatureParameter? = some a) (known : EntriesOf es as) :
    (∀ es', added p .inputs v "" es = .ok es' → EntriesOf es' as ∨
      EntriesOf es' (as ++ [a]) ∧ a.2.isDecimal ∧ ∀ b ∈ as, Apart b a) ∧
    (a.2.isDecimal → (∀ b ∈ as, Apart b a) → ∃ es', added p .inputs v "" es = .ok es' ∧ EntriesOf es' (as ++ [a])) := by
  obtain ⟨made,exists_made⟩ := newEntry_parameter untyped typed
  have fresh : (∀ x, a.1 = some x → findName x es = .ok none) ↔ ∀ b ∈ as, Apart b a := by
    simp only [findName_eq_none_iff,Apart]
    cases a.1 with
    | none => simp
    | some x => simpa using known.forall_name (q := fun y => y ≠ none ∧ y ≠ some x)
  constructor
  · intro es' h
    obtain ⟨x,k,-,-,rfl⟩ | ⟨absent,e,new,rfl⟩ := (added_parameter_iff typed).1 h
    · exact .inl known
    · obtain ⟨decimal,name,concrete⟩ := made e new
      exact .inr ⟨known.concat name concrete,decimal,fresh.1 absent⟩
  · intro decimal apart
    obtain ⟨e,new⟩ := exists_made decimal
    obtain ⟨-,name,concrete⟩ := made e new
    exact ⟨_,(added_parameter_iff typed).2 (.inr ⟨fresh.2 apart,e,new,rfl⟩),known.concat name concrete⟩

/-- The entries of a list of parameters: every parameter adds at most one, and all of them add one only if they are
apart from each other. -/
theorem foldlM_parameters (untyped : p.types = {}) {bs : List SignatureParameter}
    (typed : vs.mapM Node.signatureParameter? = some bs) (known : EntriesOf es as) :
    (∀ es', vs.foldlM (fun es v => added p .inputs v "" es) es = .ok es' → ∃ cs, EntriesOf es' cs ∧
      cs.length ≤ as.length + bs.length ∧ (cs.length = as.length + bs.length → cs = as ++ bs ∧ bs.Pairwise Apart ∧
        ∀ a ∈ as, ∀ b ∈ bs, Apart a b)) ∧
    ((∀ b ∈ bs, b.2.isDecimal) → bs.Pairwise Apart → (∀ a ∈ as, ∀ b ∈ bs, Apart a b) →
      ∃ es', vs.foldlM (fun es v => added p .inputs v "" es) es = .ok es' ∧ EntriesOf es' (as ++ bs)) := by
  induction vs generalizing bs es as with
  | nil =>
    obtain rfl : bs = [] := by simpa using typed.symm
    constructor
    · intro es' h
      obtain rfl := Except.ok.inj h
      exact ⟨as,known,le_refl _,by simp⟩
    · intro _ _ _
      exact ⟨es,rfl,by simpa using known⟩
  | cons _ _ ih =>
    rw [mapM_cons] at typed
    obtain ⟨b,here,typed⟩ := Option.bind_eq_some_iff.1 typed
    obtain ⟨bs,rest,typed⟩ := Option.bind_eq_some_iff.1 typed
    obtain rfl := Option.some.inj typed
    obtain ⟨step,exists_step⟩ := added_parameter untyped here known
    simp only [foldlM_cons,length_cons,pairwise_cons,forall_mem_cons]
    constructor
    · intro es' h
      obtain ⟨es₁,first,more⟩ := bind_ok.1 h
      obtain same | ⟨grown,-,apart⟩ := step es₁ first
      · obtain ⟨cs,entries,le,-⟩ := (ih rest same).1 es' more
        exact ⟨cs,entries,by omega,fun _ => by omega⟩
      · obtain ⟨cs,entries,le,all⟩ := (ih rest grown).1 es' more
        rw [length_append,length_singleton] at le all
        refine ⟨cs,entries,by omega,fun eq => ?_⟩
        obtain ⟨rfl,pairwise,between⟩ := all (by omega)
        rw [forall_mem_append,forall_mem_singleton] at between
        exact ⟨by simp,⟨between.2,pairwise⟩,fun a ha => ⟨apart a ha,between.1 a ha⟩⟩
    · rintro ⟨decimal,decimals⟩ ⟨apart,pairwise⟩ between
      obtain ⟨es₁,first,grown⟩ := exists_step decimal fun a ha => (between a ha).1
      obtain ⟨es',more,entries⟩ := (ih rest grown).2 decimals pairwise (by
        rw [forall_mem_append,forall_mem_singleton]
        exact ⟨fun a ha => (between a ha).2,apart⟩)
      refine ⟨es',bind_ok.2 ⟨es₁,first,more⟩,?_⟩
      rwa [append_assoc] at entries

/-! ### Signatures -/

/-- The text can be told apart from others in a list with commas. -/
def IsItem (x : String) : Prop :=
  ',' ∉ x.toList ∧ x ≠ ""

theorem isItem_textWith {t : SignatureType} {f : String → String} {g : ArrayLength → String} (word : IsItem (f t.word))
    (lengths : ∀ l, ',' ∉ (g l).toList) : IsItem (t.textWith f g) := by
  have brackets (ls : List (Option ArrayLength)) : ',' ∉ (String.join (ls.map (ArrayLength.bracket g))).toList := by
    induction ls with
    | nil => simp
    | cons l _ ih => cases l <;> simpa [ArrayLength.bracket,String.join_cons,lengths] using ih
  constructor
  · rw [SignatureType.textWith,String.toList_append,mem_append]
    exact not_or.2 ⟨word.1,brackets _⟩
  · intro empty
    have chars := congrArg String.toList empty
    rw [SignatureType.textWith,String.toList_append] at chars
    exact word.2 (String.toList_injective (append_eq_nil_iff.1 chars).1)

theorem isItem_word : ∀ w ∈ SignatureType.words,
    (',' ∉ (SignatureType.spelledWord w).toList ∧ SignatureType.spelledWord w ≠ "") ∧
      ',' ∉ (SignatureType.canonicalWord w).toList ∧ SignatureType.canonicalWord w ≠ "" := by
  decide +kernel

theorem isItem_spelled (t : SignatureType) : IsItem t.spelled :=
  isItem_textWith (isItem_word t.word t.known).1 fun l h => by
    cases SignatureType.isNamePart_of_written l _ h

theorem isItem_canonical (values : String → Nat) (t : SignatureType) : IsItem (t.canonical values) :=
  isItem_textWith (isItem_word t.word t.known).2 fun l h => by
    cases SignatureType.isDigit_of_decimal values l _ h

theorem intercalate_eq_empty (hx : ∀ x ∈ xs, IsItem x) (h : String.intercalate "," xs = "") : xs = [] := by
  cases xs with
  | nil => rfl
  | cons x xs =>
    have item := (hx x (by simp)).2
    cases xs with
    | nil => exact absurd (by simpa using h) item
    | cons =>
      have chars := congrArg String.toList h
      simp [String.intercalate_cons_cons] at chars

theorem intercalate_inj (hx : ∀ x ∈ xs, IsItem x) (hy : ∀ y ∈ ys, IsItem y)
    (h : String.intercalate "," xs = String.intercalate "," ys) : xs = ys := by
  have split {xs : List String} (hx : ∀ x ∈ xs, IsItem x) (full : xs ≠ []) :
      (String.intercalate "," xs).toList.splitOn ',' = xs.map String.toList := by
    rw [String.toList_intercalate]
    refine splitOn_intercalate ',' ?_ (by simpa using full)
    intro l hl
    obtain ⟨x,mem,rfl⟩ := mem_map.1 hl
    exact (hx x mem).1
  by_cases left : xs = []
  · subst left
    exact (intercalate_eq_empty hy h.symm).symm
  by_cases right : ys = []
  · subst right
    exact intercalate_eq_empty hx h
  have chars := congrArg (fun s => s.toList.splitOn ',') h
  rw [split hx left,split hy right] at chars
  exact map_injective_iff.2 (fun _ _ => String.toList_injective) chars

theorem signature_inj {name : String} (hx : ∀ x ∈ xs, IsItem x) (hy : ∀ y ∈ ys, IsItem y)
    (h : signature name xs = signature name ys) : xs = ys := by
  refine intercalate_inj hx hy ?_
  have chars := congrArg String.toList h
  simp only [signature,String.toList_append,append_assoc,append_cancel_left_eq,append_cancel_right_eq] at chars
  exact String.toList_injective chars

theorem hashedSignature_eq_iff (untyped : p.types = {}) (typed : vs.mapM Node.signatureParameter? = some as)
    (name : String) (values : String → Nat) :
    hashedSignature p name vs = .ok (signature name (as.map (·.2.canonical values))) ↔ Signable as := by
  have start : EntriesOf [] [] := rfl
  obtain ⟨run,exists_run⟩ := foldlM_parameters untyped typed start
  constructor
  · intro h
    obtain ⟨es,entries,h⟩ := bind_ok.1 h
    obtain ⟨cs,listed,-,all⟩ := run es entries
    rw [takeConcrete_of_entriesOf listed] at h
    have same : cs.map (·.2.spelled) = as.map (·.2.canonical values) := by
      refine signature_inj ?_ ?_ (Except.ok.inj h)
      · exact forall_mem_map.2 fun c _ => isItem_spelled c.2
      · exact forall_mem_map.2 fun a _ => isItem_canonical values a.2
    have length : cs.length = as.length := by simpa using congrArg List.length same
    obtain ⟨eq,pairwise,-⟩ := all (by simpa using length)
    rw [eq,nil_append] at same
    refine ⟨pairwise,fun a ha => ?_⟩
    exact (a.2.spelled_eq_canonical_iff values).1 (map_inj_left.1 same a ha)
  · rintro ⟨pairwise,plain⟩
    obtain ⟨es,entries,listed⟩ := exists_run (fun b hb => b.2.isDecimal_of_isPlain (plain b hb)) pairwise (by simp)
    refine bind_ok.2 ⟨es,entries,?_⟩
    rw [takeConcrete_of_entriesOf listed,nil_append]
    have same : as.map (·.2.spelled) = as.map (·.2.canonical values) :=
      map_congr_left fun a ha => (a.2.spelled_eq_canonical_iff values).2 (plain a ha)
    rw [same]
    rfl

/-! ### Selectors -/

theorem selector_of_describes {ps rs : List Node} {reads writes : List Access} {b : Parts} (h : p.Describes ps rs reads writes b)
    (f : FunctionPolicy) : ∃ text, hashedSignature p (f.assembled b).name ps = .ok text ∧
      (f.assembled b).selector = some (selectorOf text) := by
  rw [name_assembled]
  exact ⟨_,bind_ok.2 ⟨_,h.inputs,bind_ok.2 ⟨_,h.types,rfl⟩⟩,rfl⟩

end FunctionPolicy

open Pass FunctionPolicy

theorem types_of_runs {settings : Settings} {text : String} {p q : Program}
    (linked : Runs (loadLinked text) { Globals.base with settings } () p) (analysed : Runs findEffects p () q) : q.types = {} := by
  obtain ⟨root,source⟩ := linkedSource_of_runs linked
  rw [(source.prepared.analysed analysed).only]
  exact source.types

/-- Selectors are made from the signature that callers use if and only if no two parameters share a name, no name
stands behind a parameter without one, and no type has to be renamed. -/
theorem selectors_canonical_iff {settings : Settings} {text : String} {p q : Program}
    (linked : Runs (loadLinked text) { Globals.base with settings } () p) (analysed : Runs findEffects p () q)
    {ps : List Node} {as : List SignatureParameter} (typed : ps.mapM Node.signatureParameter? = some as) (values : String → Nat) :
    (∀ name, hashedSignature q name ps = .ok (signature name (as.map (·.2.canonical values))) ↔ Signable as) ∧
    ∀ i label marks results body kind f, ofFunction q (.function i label (some ps) marks results body kind) = .ok f →
      ∃ hashed, hashedSignature q f.name ps = .ok hashed ∧ f.selector = some (selectorOf hashed) := by
  refine ⟨fun name => hashedSignature_eq_iff (types_of_runs linked analysed) typed name values,fun i label marks results body kind f made => ?_⟩
  obtain ⟨_,_,_,_,_,_,_,name,same,-,b,described,rfl⟩ := ofFunction_eq_ok_iff.1 made
  cases same
  exact selector_of_describes described _

/-- A function with a parameter of a type that has to be renamed. -/
def signedContract : String :=
  "pragma cloak ^0.2.0;\ncontract C \x7b\n    function f(uint a, int b) public \x7b\n    \x7d\n\x7d\n"

/-- The parameters of the functions of an analysed source. -/
def Program.parameterLists (q : Program) : List (List Node) :=
  q.tree.preorder.filterMap fun
    | .function _ _ ps _ _ _ _ => ps
    | _ => none

theorem signedContract_not_canonical : ∃ p q ps as,
    Runs (loadLinked signedContract) { Globals.base with settings := {} } () p ∧ Runs findEffects p () q ∧
    ps ∈ q.parameterLists ∧ ps.mapM Node.signatureParameter? = some as ∧ hashedSignature q "f" ps = .ok "f(uint256,int)" ∧
    ∀ values, hashedSignature q "f" ps ≠ .ok (signature "f" (as.map (·.2.canonical values))) := by
  have chars : signedContract = String.ofList _ := rfl
  have evaluated : (loadLinked signedContract).succeeds { Globals.base with settings := {} } (fun _ p =>
      findEffects.succeeds p fun _ q => q.parameterLists.any fun ps =>
        decide (hashedSignature q "f" ps = .ok "f(uint256,int)") &&
          (ps.mapM Node.signatureParameter?).any fun as => !decide (Signable as)) = true := by
    rw [loadLinked,load_eq chars]
    decide +kernel
  obtain ⟨_,p,linked,evaluated⟩ := of_succeeds evaluated
  obtain ⟨_,q,analysed,evaluated⟩ := of_succeeds evaluated
  simp only [any_eq_true,Bool.and_eq_true,decide_eq_true_eq,Option.any_eq_true,Bool.not_eq_true',
    decide_eq_false_iff_not] at evaluated
  obtain ⟨ps,listed,hashed,as,typed,renamed⟩ := evaluated
  refine ⟨p,q,ps,as,linked,analysed,listed,typed,hashed,fun values same => renamed ?_⟩
  exact ((selectors_canonical_iff linked analysed typed values).1 "f").1 same

end Confidential
