import Confidential.Proofs.FinalVariables
import Confidential.Proofs.Selectors

/-!
Entries of declared parameters.
-/

namespace Confidential

open List

/-- What the declaration of a parameter of an elementary type says. -/
structure DeclaredParameter where
  name : Option String
  word : String
  owner : String
deriving DecidableEq

def Node.declaredParameter? (v : Node) : Option DeclaredParameter := do
  let a ← v.signatureParameter?
  let owner ← v.ownerText?
  if a.2.lengths.isEmpty then some { name := a.1, word := a.2.word, owner } else none

/-- The parameters and the results of a function. -/
def Node.declaredSignature? : Node → Option (List DeclaredParameter × List DeclaredParameter)
  | .function _ _ (some parameters) _ results _ _ => do
    return (← parameters.mapM declaredParameter?,← results.mapM declaredParameter?)
  | _ => none

namespace FunctionPolicy

/-- The entry has the name, the type and the owner that are declared. -/
structure Mirrors (d : DeclaredParameter) (e : Entry) : Prop where
  name : e.name = d.name
  type : e.type = some d.word
  owner : e.ownership = some (.single d.owner)
  keys : e.keys = none

/-- No parameter with a name stands behind one without. -/
def NamedFirst (ds : List DeclaredParameter) : Prop :=
  ds.Pairwise fun c d => d.name.isSome → c.name.isSome

instance (ds : List DeclaredParameter) : Decidable (NamedFirst ds) :=
  inferInstanceAs (Decidable (ds.Pairwise fun c d => d.name.isSome → c.name.isSome))

/-- No name is used twice. -/
def NamesApart (ds : List DeclaredParameter) : Prop :=
  (ds.filterMap (·.name)).Nodup

instance (ds : List DeclaredParameter) : Decidable (NamesApart ds) :=
  inferInstanceAs (Decidable (ds.filterMap (·.name)).Nodup)

section

variable {p : Program} {s : Section} {v : Node} {d : DeclaredParameter} {ds : List DeclaredParameter} {es : List Entry}

variable {vs : List Node}

theorem declaredParameter?_eq_some (h : v.declaredParameter? = some d) : ∃ a : SignatureParameter,
    v.signatureParameter? = some a ∧ a.1 = d.name ∧ a.2.word = d.word ∧ a.2.lengths = [] ∧ v.ownerText? = some d.owner := by
  obtain ⟨a,typed,h⟩ := Option.bind_eq_some_iff.1 h
  obtain ⟨owner,owned,h⟩ := Option.bind_eq_some_iff.1 h
  split at h
  next plain =>
    cases h
    exact ⟨a,typed,rfl,rfl,isEmpty_iff.1 plain,owned⟩
  next => cases h

theorem eraseAnnotations_word : ∀ w ∈ SignatureType.words, Text.eraseAnnotations w = w := by
  decide +kernel

/-- An entry of the section that mirrors the parameter; inputs still have the type that signatures use. -/
def Enters (s : Section) (d : DeclaredParameter) (e : Entry) : Prop :=
  Mirrors d e ∧ (s = .inputs → e.concrete.isSome)

theorem newEntry_declared (declares : s = .inputs ∨ s = .outputs) (untyped : p.types = {}) (typed : v.declaredParameter? = some d) :
    ∃ e, newEntry p s v = .ok e ∧ Enters s d e := by
  obtain ⟨a,parameter,named,word,plain,owned⟩ := declaredParameter?_eq_some typed
  obtain ⟨type,owner,isType,owned',made⟩ := newEntry_parameter_eq untyped parameter s
  obtain rfl : d.owner = owner := Option.some.inj (owned.symm.trans owned')
  have text : Text.eraseAnnotations a.2.written = d.word := by
    rw [SignatureType.written,SignatureType.textWith,plain,← word]
    simpa using eraseAnnotations_word _ a.2.known
  have described {n : Node} (h : SignatureType.IsType a.2.word a.2.lengths n) : ∃ shape, Shape.ofType n = .ok shape :=
    (h.described_iff a.2.known).2 (by simp [plain])
  rw [text,named] at made
  rw [made]
  obtain rfl | rfl := declares
  · obtain ⟨again,exists_again⟩ := a.2.piece_written
    obtain ⟨n,piece⟩ := exists_again (by simp [SignatureType.isDecimal,plain])
    obtain ⟨shape,known⟩ := described (again n piece)
    have concrete := ((again n piece).code a.2.known).2
    simp only [piece,ok_bind,known,concrete]
    exact ⟨_,rfl,⟨rfl,rfl,rfl,rfl⟩,fun _ => rfl⟩
  · obtain ⟨shape,known⟩ := described isType
    simp only [known]
    exact ⟨_,rfl,⟨rfl,rfl,rfl,rfl⟩,by simp⟩

theorem findName_eq_unknownKey {x : String} (absent : ∀ e ∈ es, e.name ≠ some x) (unnamed : ∃ e ∈ es, e.name = none) :
    findName x es = .error .unknownKey := by
  induction es with
  | nil => simp at unnamed
  | cons e _ ih =>
    rw [forall_mem_cons] at absent
    unfold findName
    cases name : e.name with
    | none => rfl
    | some y =>
      have other : y ≠ x := by
        rintro rfl
        exact absent.1 name
      simp only [beq_eq_false_iff_ne.2 other,Bool.false_eq_true,if_false]
      rw [ih absent.2 (by simpa [name] using unnamed)]
      rfl

/-- One more parameter has its entry at the end, or its name is sought among entries that have none. -/
theorem added_declared (declares : s = .inputs ∨ s = .outputs) (untyped : p.types = {}) (typed : v.declaredParameter? = some d)
    (known : Forall₂ (Enters s) ds es) (apart : ∀ c ∈ ds, d.name.isSome → c.name ≠ d.name) :
    ((∀ c ∈ ds, d.name.isSome → c.name.isSome) → ∃ e, added p s v "" es = .ok (es ++ [e]) ∧ Enters s d e) ∧
      (¬ (∀ c ∈ ds, d.name.isSome → c.name.isSome) → added p s v "" es = .error .unknownKey) := by
  obtain ⟨a,parameter,named,-⟩ := declaredParameter?_eq_some typed
  obtain ⟨e,made,enters⟩ := newEntry_declared declares untyped typed
  have names : es.map (·.name) = ds.map (·.name) := by
    clear apart
    induction known with
    | nil => rfl
    | cons here _ ih => simp [here.1.name,ih]
  have forall_name (P : Option String → Prop) : (∀ e ∈ es, P e.name) ↔ ∀ c ∈ ds, P c.name := by
    rw [← forall_mem_map (f := fun e : Entry => e.name) (P := P),names,forall_mem_map]
  rw [added_parameter_eq parameter,named,made]
  cases name : d.name with
  | none => exact ⟨fun _ => ⟨e,rfl,enters⟩,fun h => absurd (by simp) h⟩
  | some x =>
    simp only [name,Option.isSome_some,true_imp_iff] at apart ⊢
    constructor
    · intro all
      have absent : findName x es = .ok none :=
        findName_eq_none_iff.2 ((forall_name fun y => y ≠ none ∧ y ≠ some x).2 fun c hc =>
          ⟨Option.isSome_iff_ne_none.1 (all c hc),apart c hc⟩)
      rw [absent]
      exact ⟨e,rfl,enters⟩
    · intro refused
      have unnamed : ¬ ∀ e ∈ es, e.name.isSome := fun h => refused ((forall_name fun y => y.isSome = true).1 h)
      rw [findName_eq_unknownKey ((forall_name fun y => y ≠ _).2 apart) (by simpa using unnamed)]
      rfl

theorem declaredEntries_run (declares : s = .inputs ∨ s = .outputs) (untyped : p.types = {})
    (typed : vs.mapM Node.declaredParameter? = some ds) (apart : NamesApart ds) :
    (NamedFirst ds → ∃ es, p.declaredEntries s vs = .ok es ∧ Forall₂ (Enters s) ds es) ∧
      (¬ NamedFirst ds → p.declaredEntries s vs = .error .unknownKey) := by
  -- from the end of the list: the last parameter meets the entries of all that stand before it
  induction vs using List.reverseRecOn generalizing ds with
  | nil =>
    obtain rfl : [] = ds := by simpa using typed
    exact ⟨fun _ => ⟨[],rfl,.nil⟩,fun h => absurd .nil h⟩
  | append_singleton vs v ih =>
    rw [mapM_append] at typed
    obtain ⟨cs,before,typed⟩ := Option.bind_eq_some_iff.1 typed
    obtain ⟨d,here,rfl⟩ : ∃ d, v.declaredParameter? = some d ∧ cs ++ [d] = ds := by
      cases last : v.declaredParameter? <;> simp [last] at typed
      exact ⟨_,rfl,typed⟩
    rw [NamesApart,filterMap_append,nodup_append] at apart
    have other : ∀ c ∈ cs, d.name.isSome → c.name ≠ d.name := by
      intro c hc named same
      obtain ⟨x,name⟩ := Option.isSome_iff_exists.1 named
      exact apart.2.2 x (mem_filterMap.2 ⟨c,hc,same.trans name⟩) x (by simp [name]) rfl
    have split : NamedFirst (cs ++ [d]) ↔ NamedFirst cs ∧ ∀ c ∈ cs, d.name.isSome → c.name.isSome := by
      simp [NamedFirst,pairwise_append]
    have step : p.declaredEntries s (vs ++ [v]) = (p.declaredEntries s vs >>= fun es => added p s v "" es) := by
      simp [Program.declaredEntries,foldlM_append]
    rw [step,split]
    by_cases first : NamedFirst cs
    · obtain ⟨es,entries,known⟩ := (ih before apart.1).1 first
      obtain ⟨grown,refused⟩ := added_declared declares untyped here known other
      rw [entries]
      constructor
      · rintro ⟨-,all⟩
        obtain ⟨e,new,enters⟩ := grown all
        exact ⟨_,new,rel_append known (.cons enters .nil)⟩
      · intro missing
        exact refused fun all => missing ⟨first,all⟩
    · rw [(ih before apart.1).2 first]
      exact ⟨fun h => absurd h.1 first,fun _ => rfl⟩

theorem enters_of_declaredEntries (declares : s = .inputs ∨ s = .outputs) (untyped : p.types = {})
    (typed : vs.mapM Node.declaredParameter? = some ds) (apart : NamesApart ds) (made : p.declaredEntries s vs = .ok es) :
    NamedFirst ds ∧ Forall₂ (Enters s) ds es := by
  obtain ⟨listed,refused⟩ := declaredEntries_run declares untyped typed apart
  by_cases first : NamedFirst ds
  · obtain ⟨_,made',known⟩ := listed first
    cases made.symm.trans made'
    exact ⟨first,known⟩
  · cases made.symm.trans (refused first)

/-- The types that signatures use can be taken out, and the entries still mirror the parameters. -/
theorem takeConcrete_inputs (known : Forall₂ (Enters .inputs) ds es) :
    (∃ types, (takeConcrete es).2 = .ok types) ∧ Forall₂ Mirrors ds (takeConcrete es).1 := by
  induction known with
  | nil => exact ⟨⟨[],rfl⟩,.nil⟩
  | cons here _ ih =>
    obtain ⟨⟨types,taken⟩,mirrored⟩ := ih
    obtain ⟨c,concrete⟩ := Option.isSome_iff_exists.1 (here.2 rfl)
    simp only [takeConcrete,concrete,taken]
    exact ⟨⟨_,rfl⟩,.cons ⟨here.1.name,here.1.type,here.1.owner,here.1.keys⟩ mirrored⟩

end

end FunctionPolicy

open Pass FunctionPolicy

/-- A function has a policy if and only if its accesses can be noted and no name stands behind a missing one; then
there is one entry for each parameter and one for each result, in the order of the declaration. -/
theorem policy_mirrors_signature {settings : Settings} {text : String} {p q : Program} {c n : Node}
    (linked : Runs (loadLinked text) { Globals.base with settings } () p) (analysed : Runs findEffects p () q)
    (hc : c ∈ p.contracts) (unit : n ∈ c.units) {ds es : List DeclaredParameter} (declared : n.declaredSignature? = some (ds,es))
    (apart : NamesApart ds) (apart' : NamesApart es) :
    ((∃ f, ofFunction q n = .ok f) ↔ NamedFirst ds ∧ NamedFirst es ∧
      (∃ read, q.notedEntries .read (q.read.getD n.id []) = .ok read) ∧
      ∃ written, q.notedEntries .mutate (q.modified.getD n.id []) = .ok written) ∧
    ∀ f, ofFunction q n = .ok f →
      List.Forall₂ Mirrors ds (f.listed .inputs) ∧ List.Forall₂ Mirrors es (f.listed .outputs) := by
  unfold Node.declaredSignature? at declared
  split at declared
  case h_2 => cases declared
  next i label ps marks rs body kind =>
  obtain ⟨ds,inputs,declared⟩ := Option.bind_eq_some_iff.1 declared
  obtain ⟨es,outputs,declared⟩ := Option.bind_eq_some_iff.1 declared
  cases declared
  obtain ⟨_,_,-,-,-,-,-,units⟩ := contract_of_runs linked hc
  obtain ⟨name,named⟩ := (units _ unit rfl).2 rfl
  have untyped := types_of_runs linked analysed
  constructor
  · constructor
    · rintro ⟨f,made⟩
      obtain ⟨_,_,_,_,_,_,_,_,same,-,b,described,-⟩ := ofFunction_eq_ok_iff.1 made
      cases same
      exact ⟨(enters_of_declaredEntries (.inl rfl) untyped inputs apart described.inputs).1,
        (enters_of_declaredEntries (.inr rfl) untyped outputs apart' described.outputs).1,⟨_,described.read⟩,_,described.mutate⟩
    · rintro ⟨first,first',⟨read,reads⟩,written,writes⟩
      obtain ⟨ins,made,known⟩ := (declaredEntries_run (.inl rfl) untyped inputs apart).1 first
      obtain ⟨outs,made',-⟩ := (declaredEntries_run (.inr rfl) untyped outputs apart').1 first'
      obtain ⟨⟨types,taken⟩,-⟩ := takeConcrete_inputs known
      exact ⟨_,ofFunction_eq_ok_iff.2 ⟨_,_,_,_,_,_,_,name,rfl,named,⟨ins,read,written,outs,types⟩,
        ⟨made,reads,writes,made',taken⟩,rfl⟩⟩
  · intro f made
    obtain ⟨_,_,_,_,_,_,_,_,same,-,b,described,rfl⟩ := ofFunction_eq_ok_iff.1 made
    cases same
    obtain ⟨-,ins⟩ := enters_of_declaredEntries (.inl rfl) untyped inputs apart described.inputs
    obtain ⟨-,outs⟩ := enters_of_declaredEntries (.inr rfl) untyped outputs apart' described.outputs
    rw [listed_assembled rfl,listed_assembled rfl]
    exact ⟨(takeConcrete_inputs ins).2,outs.imp fun _ _ h => h.1⟩

/-- Two functions with the same results in the two orders. -/
def mixedResults : String :=
  "pragma cloak ^0.2.0;\ncontract C \x7b\n" ++
  "    function f(uint a) public returns (uint, uint b) \x7b\n        return (1, a);\n    \x7d\n" ++
  "    function g(uint a) public returns (uint b, uint) \x7b\n        return (a, 1);\n    \x7d\n\x7d\n"

theorem mixedResults_described : ∃ p q c, Runs (loadLinked mixedResults) { Globals.base with settings := {} } () p ∧
    Runs findEffects p () q ∧ c ∈ p.contracts ∧
    (∃ n ∈ c.units, n.declaredSignature? = some ([⟨some "a","uint","all"⟩],[⟨none,"uint","all"⟩,⟨some "b","uint","all"⟩]) ∧
      ¬ ∃ f, ofFunction q n = .ok f) ∧
    ∃ n ∈ c.units, ∃ f, ofFunction q n = .ok f ∧
      List.Forall₂ Mirrors [⟨some "b","uint","all"⟩,⟨none,"uint","all"⟩] (f.listed .outputs) := by
  have chars : mixedResults = String.ofList _ := append_eq_ofList (append_eq_ofList rfl rfl) rfl
  have evaluated : (loadLinked mixedResults).succeeds { Globals.base with settings := {} } (fun _ p =>
      findEffects.succeeds p fun _ q => p.contracts.any fun c => (c.units.any fun n => decide (n.declaredSignature? =
        some ([⟨some "a","uint","all"⟩],[⟨none,"uint","all"⟩,⟨some "b","uint","all"⟩]))) &&
      c.units.any fun n => decide (n.declaredSignature? =
        some ([⟨some "a","uint","all"⟩],[⟨some "b","uint","all"⟩,⟨none,"uint","all"⟩])) &&
        decide (q.notedEntries .read (q.read.getD n.id []) = .ok []) &&
        decide (q.notedEntries .mutate (q.modified.getD n.id []) = .ok [])) = true := by
    rw [loadLinked,load_eq chars]
    decide +kernel
  obtain ⟨_,p,linked,evaluated⟩ := of_succeeds evaluated
  obtain ⟨_,q,analysed,evaluated⟩ := of_succeeds evaluated
  simp only [any_eq_true,Bool.and_eq_true,decide_eq_true_eq] at evaluated
  obtain ⟨c,hc,⟨f,unit,declared⟩,g,unit',⟨declared',read⟩,written⟩ := evaluated
  refine ⟨p,q,c,linked,analysed,hc,⟨f,unit,declared,fun made => ?_⟩,g,unit',?_⟩
  · have first := ((policy_mirrors_signature linked analysed hc unit declared (by decide) (by decide)).1.1 made).2.1
    exact absurd first (by decide)
  · obtain ⟨described,mirrors⟩ := policy_mirrors_signature linked analysed hc unit' declared' (by decide) (by decide)
    obtain ⟨f,made⟩ := described.2 ⟨by decide,by decide,⟨_,read⟩,_,written⟩
    exact ⟨f,made,(mirrors f made).2⟩

end Confidential
