import Confidential.Proofs.Runs

/-!
What the policy of a function is made of.
-/

namespace Confidential

open List Node

namespace Entry

def IsFor (e : Entry) (var : Node) : Prop :=
  ∀ name, e.name = some name ↔ Program.nameText var = .ok name

def withKey (e : Entry) (key : String) : Entry :=
  { e with keys := some (if !(e.keys.getD []).contains key then e.keys.getD [] ++ [key] else e.keys.getD []) }

theorem modify_length {es : List Entry} {e : Entry} {g : Entry → Entry} : (es ++ [e]).modify es.length g = es ++ [g e] := by
  induction es with
  | nil => rfl
  | cons _ _ ih => simpa using ih

end Entry

namespace FunctionPolicy

def Makes {α : Type} (x : Change α) (f : FunctionPolicy) (a : α) (f' : FunctionPolicy) : Prop :=
  x.run f = (.ok a,f')

section Makes

variable {α β : Type} {f f' : FunctionPolicy}

variable {b : β}

theorem makes_pure {a b : α} : Makes (pure a) f b f' ↔ a = b ∧ f = f' := by
  change (Except.ok a,f) = (Except.ok b,f') ↔ _
  rw [Prod.mk.injEq,Except.ok.injEq]

theorem makes_bind {x : Change α} {g : α → Change β} : Makes (x >>= g) f b f' ↔ ∃ a h, Makes x f a h ∧ Makes (g a) h b f' :=
  Pass.run_bind_eq_ok

theorem makes_get_bind {g : FunctionPolicy → Change β} : Makes (get >>= g) f b f' ↔ Makes (g f) f b f' :=
  Iff.rfl

theorem makes_modify {g : FunctionPolicy → FunctionPolicy} {u : Unit} : Makes (modify g) f u f' ↔ g f = f' := by
  change (Except.ok (),g f) = (Except.ok u,f') ↔ _
  rw [Prod.mk.injEq,and_iff_right rfl]

theorem makes_set_bind {h : FunctionPolicy} {g : Unit → Change β} : Makes (set h >>= g) f b f' ↔ Makes (g ()) h b f' :=
  Iff.rfl

theorem makes_lift_bind {r : Outcome α} {g : α → Change β} :
    Makes (Pass.lift r >>= g) f b f' ↔ ∃ a, r = .ok a ∧ Makes (g a) f b f' := by
  cases r with
  | error => exact ⟨fun h => (nomatch (Prod.mk.inj h).1),fun ⟨_,h,_⟩ => (nomatch h)⟩
  | ok a => exact ⟨fun h => ⟨a,rfl,h⟩,fun ⟨_,h,made⟩ => Except.ok.inj h ▸ made⟩

theorem run_get (f : FunctionPolicy) : (get : Change FunctionPolicy).run f = (.ok f,f) := rfl

theorem run_set (f g : FunctionPolicy) : (set g : Change Unit).run f = (.ok (),g) := rfl

theorem run_modify (f : FunctionPolicy) (g : FunctionPolicy → FunctionPolicy) : (modify g : Change Unit).run f = (.ok (),g f) := rfl

theorem run_lift {α : Type} (f : FunctionPolicy) (r : Outcome α) : (Pass.lift r : Change α).run f = (r,f) := rfl

theorem run_pure {α : Type} (f : FunctionPolicy) (a : α) : (pure a : Change α).run f = (.ok a,f) := rfl

end Makes

/-! ### Sections -/

theorem lookup_replace (l : List (Section × List Entry)) (s s' : Section) (es : List Entry) :
    (l.map fun e => if e.1 = s then (s,es) else e).lookup s' =
      if s' = s then (l.lookup s).map fun _ => es else l.lookup s' := by
  induction l with
  | nil => simp
  | cons _ _ ih =>
    rw [map_cons,lookup_cons,lookup_cons,lookup_cons,ih]
    grind

theorem entries?_setEntries (f : FunctionPolicy) (s s' : Section) (es : List Entry) :
    (f.setEntries s es).entries? s' = if s' = s then some es else f.entries? s' := by
  unfold setEntries
  split
  next known =>
    obtain ⟨old,known⟩ := Option.isSome_iff_exists.1 known
    have replaced := lookup_replace f.sections s s' es
    rw [show f.sections.lookup s = some old from known] at replaced
    exact replaced
  next unknown =>
    rw [Option.not_isSome_iff_eq_none] at unknown
    unfold entries? at unknown ⊢
    rw [lookup_append,lookup_cons]
    grind

theorem name_setEntries (f : FunctionPolicy) (s : Section) (es : List Entry) : (f.setEntries s es).name = f.name := by
  unfold setEntries
  split <;> rfl

def Tidy (f : FunctionPolicy) : Prop :=
  (f.sections.map Prod.fst).Nodup

theorem map_fst_replace (l : List (Section × List Entry)) (s : Section) (es : List Entry) :
    (l.map fun e => if e.1 = s then (s,es) else e).map Prod.fst = l.map Prod.fst := by
  rw [map_map]
  refine map_congr_left fun e _ => ?_
  simp only [Function.comp_apply]
  split <;> simp_all

variable {f : FunctionPolicy} {es es' : List Entry} {k : Nat} {var : Node} {p : Program} {s : Section} {key : String}

variable {l : List (Section × List Entry)} {name : String}

theorem not_mem_of_lookup (h : l.lookup s = none) : s ∉ l.map Prod.fst := by
  intro mem
  obtain ⟨e,he,rfl⟩ := mem_map.1 mem
  simpa using lookup_eq_none_iff.1 h e he

theorem tidy_setEntries (h : f.Tidy) (s : Section) (es : List Entry) : (f.setEntries s es).Tidy := by
  unfold Tidy setEntries at *
  split
  next => rwa [map_fst_replace]
  next unknown =>
    rw [Option.not_isSome_iff_eq_none] at unknown
    rw [map_append,nodup_append]
    refine ⟨h,nodup_singleton _,?_⟩
    rintro a ha b hb rfl
    cases mem_singleton.1 hb
    exact not_mem_of_lookup unknown ha

theorem replace_of_not_mem (es : List Entry) (h : s ∉ l.map Prod.fst) :
    (l.map fun e => if e.1 = s then (s,es) else e) = l := by
  refine (map_congr_left fun e he => ?_).trans (map_id' l)
  have other : e.1 ≠ s := by
    rintro rfl
    exact h (mem_map_of_mem he)
  rw [if_neg other]

theorem setEntries_twice :
    (f.setEntries s es).setEntries s es' = f.setEntries s es' := by
  have known : ((f.setEntries s es).entries? s).isSome := by rw [entries?_setEntries,if_pos rfl,Option.isSome_some]
  rw [setEntries,if_pos known,setEntries,setEntries]
  split
  next =>
    simp only [map_map]
    congr 1
    refine map_congr_left fun e _ => ?_
    simp only [Function.comp_apply]
    split <;> simp_all
  next unknown =>
    rw [Option.not_isSome_iff_eq_none] at unknown
    simp only [map_append,map_cons,if_true,map_nil,replace_of_not_mem es' (not_mem_of_lookup unknown)]

theorem replace_eq_self (nodup : (l.map Prod.fst).Nodup)
    (known : l.lookup s = some es) : (l.map fun e => if e.1 = s then (s,es) else e) = l := by
  induction l with
  | nil => rfl
  | cons e _ ih =>
    rw [map_cons,nodup_cons] at nodup
    rw [lookup_cons] at known
    by_cases same : e.1 = s
    · subst same
      simp only [BEq.rfl,Option.some.injEq] at known
      rw [map_cons,if_pos rfl,replace_of_not_mem es nodup.1,← known]
    · have other : (s == e.1) = false := beq_eq_false_iff_ne.2 (Ne.symm same)
      simp only [other] at known
      rw [map_cons,if_neg same,ih nodup.2 known]

theorem setEntries_self (h : f.Tidy) (known : f.entries? s = some es) : f.setEntries s es = f := by
  rw [setEntries,if_pos (by rw [known]; rfl),replace_eq_self h known]

/-! ### Adding a variable -/

abbrev listed (f : FunctionPolicy) (s : Section) : List Entry :=
  (f.entries? s).getD []

@[simp] theorem listed_setEntries (s s' : Section) :
    (f.setEntries s es).listed s' = if s' = s then es else f.listed s' := by
  unfold listed
  rw [entries?_setEntries]
  split <;> rfl

def entryFor? (var : Node) (es : List Entry) : Outcome (Option Nat) := do
  match ← var.declaredName with
  | .identifier _ name => findName name es
  | _ => return none

def entered (p : Program) (s : Section) (var : Node) (es : List Entry) : Outcome (Nat × List Entry) := do
  match ← entryFor? var es with
  | some k => return (k,es)
  | none => return (es.length,es ++ [← newEntry p s var])

def keyed (p : Program) (var : Node) (key : String) (k : Nat) (es : List Entry) : Outcome (List Entry) := do
  if ← isMappingState p var then return es.modify k (·.withKey (Text.eraseAnnotations key))
  return es

def added (p : Program) (s : Section) (var : Node) (key : String) (es : List Entry) : Outcome (List Entry) := do
  let (k,es) ← entered p s var es
  keyed p var key k es

theorem findName_eq_some (h : findName name es = .ok (some k)) :
    ∃ e, es[k]? = some e ∧ e.name = some name := by
  induction es generalizing k with
  | nil => cases h
  | cons e _ ih =>
    unfold findName at h
    split at h
    · cases h
    next n known =>
      split at h
      next same =>
        cases h
        exact ⟨e,rfl,known.trans (congrArg some (eq_of_beq same))⟩
      next =>
        obtain ⟨j,found,h⟩ := bind_ok.1 h
        cases j with
        | none => cases h
        | some =>
          cases h
          exact ih found

theorem findName_eq_none_iff {x : String} : findName x es = .ok none ↔ ∀ e ∈ es, e.name ≠ none ∧ e.name ≠ some x := by
  induction es with
  | nil => simp [findName]
  | cons e es ih =>
    rw [forall_mem_cons,← ih,findName]
    cases e.name with
    | none => simp
    | some y =>
      by_cases same : y = x
      · simp [same]
      · simp only [beq_eq_false_iff_ne.2 same,Bool.false_eq_true,if_false]
        cases findName x es with
        | error => simp [bind,Except.bind]
        | ok found => cases found <;> simp [bind,Except.bind,pure,Except.pure,same]

theorem nameText_eq_ok {label : Node} (declared : var.declaredName = .ok label) :
    Program.nameText var = .ok name ↔ label.identifierText? = some name := by
  unfold declaredName at declared
  unfold Program.nameText
  split at declared
  next known =>
    cases declared
    rw [known]
    cases label <;> simp [identifierText?]
  next => cases declared

theorem yields_newEntry (p : Program) (s : Section) (var : Node) :
    Outcome.Yields (fun e : Entry => e.IsFor var ∧ e.keys = none) (newEntry p s var) := by
  refine .bind (P := fun label => var.declaredName = .ok label) (fun _ h => h) fun label declared => ?_
  have fits {e : Entry} (named : e.name = label.identifierText?) (keys : e.keys = none) : e.IsFor var ∧ e.keys = none :=
    ⟨fun name => by rw [nameText_eq_ok declared,named],keys⟩
  have named : ∀ label : Node, (match label with | .identifier _ name => some name | _ => none) = label.identifierText? :=
    fun label => by cases label <;> rfl
  dsimp only
  split
  · exact .pure (fits (named label) rfl)
  · refine .skip fun typed => ?_
    obtain ⟨type,owned⟩ := typed
    refine .skip fun text => ?_
    have last (e : Entry) (h : e.name = label.identifierText? ∧ e.keys = none) : Outcome.Yields
        (fun e : Entry => e.IsFor var ∧ e.keys = none) (do return { e with ownership := some (← Ownership.ofType owned) }) :=
      .skip fun _ => .pure (fits h.1 h.2)
    dsimp only
    split
    · exact .skip fun _ => .bind (.pure ⟨named label,rfl⟩) last
    · exact .skip fun _ => .skip fun _ => .skip fun _ => .skip fun _ => .bind (.pure ⟨named label,rfl⟩) last
    · exact .bind (.pure ⟨named label,rfl⟩) last

theorem entryFor?_eq_some (h : entryFor? var es = .ok (some k)) :
    ∃ e, es[k]? = some e ∧ e.IsFor var ∧ e.name ≠ none := by
  obtain ⟨label,declared,h⟩ := bind_ok.1 h
  split at h
  next i text =>
    obtain ⟨e,found,named⟩ := findName_eq_some h
    refine ⟨e,found,fun name => ?_,by simp [named]⟩
    rw [nameText_eq_ok declared,named]
    rfl
  next => cases h

theorem entered_eq_ok
    (h : entered p s var es = .ok (k,es')) :
    ∃ e, es'[k]? = some e ∧ e.IsFor var ∧
      (es' = es ∧ e.name ≠ none ∨ newEntry p s var = .ok e ∧ e.keys = none ∧ k = es.length ∧ es' = es ++ [e]) := by
  obtain ⟨found,at',h⟩ := bind_ok.1 h
  cases found with
  | some =>
    cases h
    obtain ⟨e,there,isFor,named⟩ := entryFor?_eq_some at'
    exact ⟨e,there,isFor,.inl ⟨rfl,named⟩⟩
  | none =>
    obtain ⟨e,made,h⟩ := bind_ok.1 h
    cases h
    obtain ⟨named,keys⟩ := yields_newEntry p s var e made
    exact ⟨e,getElem?_concat_length,named,.inr ⟨made,keys,rfl,rfl⟩⟩

theorem added_eq_ok (h : added p s var key es = .ok es') :
    ∃ k es₁ mapping, entered p s var es = .ok (k,es₁) ∧ isMappingState p var = .ok mapping ∧
      es' = if mapping then es₁.modify k (·.withKey (Text.eraseAnnotations key)) else es₁ := by
  obtain ⟨⟨k,es₁⟩,entered,h⟩ := bind_ok.1 h
  obtain ⟨mapping,asked,h⟩ := bind_ok.1 h
  refine ⟨k,es₁,mapping,entered,asked,?_⟩
  cases mapping <;> cases h <;> rfl

theorem added_ne_nil (h : added p s var key es = .ok es') : es' ≠ [] := by
  obtain ⟨k,es₁,mapping,entered,-,rfl⟩ := added_eq_ok h
  obtain ⟨e,there,-⟩ := entered_eq_ok entered
  have full : es₁ ≠ [] := ne_nil_of_mem (mem_of_getElem? there)
  split
  · simpa [← length_eq_zero_iff] using full
  · exact full

/-- Does the entry at a position lack the key of a mapping? -/
def lacksKey (keyed : Bool) (key : String) (k : Nat) (es : List Entry) : Bool :=
  keyed && !(((es[k]?).bind (·.keys)).getD []).contains (Text.eraseAnnotations key)

/-- The answer and the entries after adding a variable, also if this fails. -/
def updated (p : Program) (s : Section) (var : Node) (key : String) (es : List Entry) : Outcome Bool × List Entry :=
  let last (k : Nat) (isNew : Bool) (es : List Entry) : Outcome Bool × List Entry :=
    match isMappingState p var with
    | .error e => (.error e,es)
    | .ok keyed => (.ok (isNew || lacksKey keyed key k es),
        if keyed then es.modify k (·.withKey (Text.eraseAnnotations key)) else es)
  match entryFor? var es with
  | .error e => (.error e,es)
  | .ok (some k) => last k false es
  | .ok none =>
    match newEntry p s var with
    | .error e => (.error e,es)
    | .ok e => last es.length true (es ++ [e])

theorem added_eq_ok_iff : added p s var key es = .ok es' ↔ ∃ b, updated p s var key es = (.ok b,es') := by
  unfold added entered keyed updated
  cases entryFor? var es with
  | error => simp [bind,Except.bind]
  | ok found =>
    cases found with
    | some =>
      cases isMappingState p var with
      | error => simp [bind,Except.bind,pure,Except.pure]
      | ok mapping => cases mapping <;> simp [bind,Except.bind,pure,Except.pure]
    | none =>
      cases newEntry p s var with
      | error => simp [bind,Except.bind]
      | ok =>
        cases isMappingState p var with
        | error => simp [bind,Except.bind,pure,Except.pure]
        | ok mapping => cases mapping <;> simp [bind,Except.bind,pure,Except.pure]

theorem modify_withKey (es : List Entry) (k : Nat) (key : String) : (es.modify k fun e =>
      { e with keys := some (if !(((es[k]?).bind (·.keys)).getD []).contains key then ((es[k]?).bind (·.keys)).getD [] ++ [key]
        else ((es[k]?).bind (·.keys)).getD []) }) = es.modify k (·.withKey key) := by
  refine ext_getElem? fun i => ?_
  simp only [getElem?_modify]
  split
  next same =>
    subst same
    cases es[k]? <;> rfl
  next => rfl

theorem run_add (p : Program) (h : f.Tidy) (var : Node) (key : String) :
    (add p s var key).run f = ((updated p s var key (f.listed s)).1,f.setEntries s (updated p s var key (f.listed s)).2) := by
  generalize es_eq : f.listed s = es
  have entries : (f.setEntries s es).entries? s = some es := by rw [entries?_setEntries,if_pos rfl]
  have found : (f.setEntries s es).position? s var = entryFor? var es := by
    unfold position?
    rw [entries]
    rfl
  have opened : (add p s var key).run f = (add p s var key).run (f.setEntries s es) := by
    cases known : f.entries? s with
    | none =>
      obtain rfl : es = [] := by rw [← es_eq,listed,known]; rfl
      simp only [add,Pass.run_bind,run_get,known,entries,Option.isNone_none,Option.isNone_some,if_true,run_set]
      simp [Pass.run_bind,run_get]
    | some old =>
      obtain rfl : old = es := by rw [← es_eq,listed,known]; rfl
      rw [setEntries_self h known]
  rw [opened,add,updated]
  simp only [Pass.run_bind,run_get,entries,Option.isNone_some,Bool.false_eq_true,if_false,run_lift,found]
  cases entryFor? var es with
  | error => rfl
  | ok found =>
    cases found with
    | some =>
      simp only [Pass.run_bind,run_pure,run_lift]
      cases isMappingState p var with
      | error => rfl
      | ok keyed =>
        cases keyed with
        | false => simp [run_pure,lacksKey]
        | true =>
          simp only [if_true,Pass.run_bind,run_get,entries,Option.getD_some,run_modify,setEntries_twice,modify_withKey]
          rfl
    | none =>
      cases newEntry p s var with
      | error => rfl
      | ok e =>
        simp only [Pass.run_bind,run_lift,run_get,entries,Option.getD_some,run_modify,setEntries_twice,run_pure]
        cases isMappingState p var with
        | error => rfl
        | ok keyed =>
          have entries' : (f.setEntries s (es ++ [e])).entries? s = some (es ++ [e]) := by rw [entries?_setEntries,if_pos rfl]
          cases keyed with
          | false => simp [run_pure]
          | true =>
            simp only [if_true,Pass.run_bind,run_get,entries',Option.getD_some,run_modify,setEntries_twice,modify_withKey]
            rfl

theorem makes_add_iff {f' : FunctionPolicy} (h : f.Tidy) :
    (∃ b, Makes (add p s var key) f b f') ↔ ∃ es, added p s var key (f.listed s) = .ok es ∧ f' = f.setEntries s es := by
  simp only [Makes,run_add p h,added_eq_ok_iff]
  constructor
  · rintro ⟨b,eq⟩
    obtain ⟨answer,rfl⟩ := Prod.mk.inj eq
    exact ⟨_,⟨b,Prod.ext answer rfl⟩,rfl⟩
  · rintro ⟨es,⟨b,eq⟩,rfl⟩
    exact ⟨b,by rw [eq]⟩

/-! ### Sections one after the other -/

/-- The lists of entries in the sections of a policy, and the types in its signature. -/
structure Parts where
  inputs : List Entry
  read : List Entry
  mutate : List Entry
  outputs : List Entry
  types : List String

def extended (f : FunctionPolicy) (s : Section) (es : List Entry) : FunctionPolicy :=
  if es.isEmpty then f else f.setEntries s es

theorem name_extended : (f.extended s es).name = f.name := by
  unfold extended
  split
  · rfl
  · exact f.name_setEntries s es

theorem tidy_extended (h : f.Tidy) (s : Section) (es : List Entry) : (f.extended s es).Tidy := by
  unfold extended
  split
  · exact h
  · exact tidy_setEntries h s es

theorem listed_extended (s s' : Section) :
    (f.extended s es).listed s' = if s' = s ∧ es ≠ [] then es else f.listed s' := by
  unfold extended
  cases es with
  | nil | cons => simp

theorem setEntries_extended :
    (f.extended s es).setEntries s es' = f.setEntries s es' := by
  unfold extended
  split
  · rfl
  · exact setEntries_twice

section Steps

variable {α : Type} {s : Section} {g : α → Change Unit} {h : List Entry → α → Outcome (List Entry)} {as : List α}
  {es : List Entry} {f f' : FunctionPolicy}

theorem makes_forM_iff
    (step : ∀ a f f', f.Tidy → (Makes (g a) f () f' ↔ ∃ es, h (f.listed s) a = .ok es ∧ f' = f.setEntries s es))
    (full : ∀ a es es', h es a = .ok es' → es' ≠ []) (tidy : f.Tidy) (void : f.listed s = []) :
    Makes (as.forM g) (f.extended s es) () f' ↔ ∃ es', as.foldlM h es = .ok es' ∧ f' = f.extended s es' := by
  induction as generalizing es with
  | nil =>
    change Makes (pure ()) (f.extended s es) () f' ↔ ∃ es', Except.ok es = .ok es' ∧ _
    simp only [makes_pure,Except.ok.injEq,exists_eq_left',true_and,eq_comm]
  | cons a as ih =>
    have first (f₁ : FunctionPolicy) : Makes (g a) (f.extended s es) () f₁ ↔
        ∃ es₁, h es a = .ok es₁ ∧ f₁ = f.extended s es₁ := by
      have start : (f.extended s es).listed s = es := by grind [listed_extended]
      rw [step a _ _ (tidy_extended tidy s es),start]
      refine exists_congr fun es₁ => and_congr_right fun made => ?_
      rw [setEntries_extended,extended,if_neg (by simpa using full a es es₁ made)]
    change Makes (do g a; as.forM g) _ () f' ↔ _
    simp only [makes_bind,first,foldlM_cons,bind_ok]
    constructor
    · rintro ⟨_,_,⟨es₁,made,rfl⟩,rest⟩
      obtain ⟨es',folded,eq⟩ := ih.1 rest
      exact ⟨es',⟨es₁,made,folded⟩,eq⟩
    · rintro ⟨es',⟨es₁,made,folded⟩,eq⟩
      exact ⟨(),_,⟨es₁,made,rfl⟩,ih.2 ⟨es',folded,eq⟩⟩

theorem makes_forM_bind {β : Type} {k : Unit → Change β} {b : β}
    (step : ∀ a f f', f.Tidy → (Makes (g a) f () f' ↔ ∃ es, h (f.listed s) a = .ok es ∧ f' = f.setEntries s es))
    (full : ∀ a es es', h es a = .ok es' → es' ≠ []) (tidy : f.Tidy) (void : f.listed s = []) :
    Makes (as.forM g >>= k) f b f' ↔ ∃ es, as.foldlM h [] = .ok es ∧ Makes (k ()) (f.extended s es) b f' := by
  have run (f₁ : FunctionPolicy) : Makes (as.forM g) (f.extended s []) () f₁ ↔
      ∃ es, as.foldlM h [] = .ok es ∧ f₁ = f.extended s es := makes_forM_iff step full tidy void
  rw [makes_bind]
  constructor
  · rintro ⟨_,f₁,made,rest⟩
    obtain ⟨es,folded,rfl⟩ := (run f₁).1 made
    exact ⟨es,folded,rest⟩
  · rintro ⟨es,folded,rest⟩
    exact ⟨(),_,(run _).2 ⟨es,folded,rfl⟩,rest⟩

theorem forM_filter (c : α → Bool) : (as.forM fun a => if c a then g a else pure ()) = (as.filter c).forM g := by
  induction as with
  | nil => rfl
  | cons a as ih =>
    change (do (if c a then g a else pure ()); as.forM fun a => if c a then g a else pure ()) = _
    rw [ih,filter_cons]
    split
    · rfl
    · rw [pure_bind]

end Steps

end FunctionPolicy

namespace Program

def viaOf (p : Program) (a : Access) : Node :=
  (a.via.map p.node).getD .omitted

def notes (p : Program) (s : Section) (a : Access) : Bool :=
  let target := p.accessTarget a
  match s with
  | .read => target.isStateVariable && target.declaredType.isMapping && (p.viaOf a).isIndex
  | .mutate => target.isStateVariable && !target.declaredType.isPrimitive && (p.viaOf a).isIndex
  | _ => false

def withAccess (p : Program) (s : Section) (es : List Entry) (a : Access) : Outcome (List Entry) := do
  let (var,key) ← p.visitedMapping (p.viaOf a)
  FunctionPolicy.added p s var key es

def declaredEntries (p : Program) (s : Section) (vs : List Node) : Outcome (List Entry) :=
  vs.foldlM (fun es v => FunctionPolicy.added p s v "" es) []

def notedEntries (p : Program) (s : Section) (as : List Access) : Outcome (List Entry) :=
  (as.filter (p.notes s)).foldlM (p.withAccess s) []

structure Describes (p : Program) (ps rs : List Node) (reads writes : List Access) (b : FunctionPolicy.Parts) : Prop where
  inputs : p.declaredEntries .inputs ps = .ok b.inputs
  read : p.notedEntries .read reads = .ok b.read
  mutate : p.notedEntries .mutate writes = .ok b.mutate
  outputs : p.declaredEntries .outputs rs = .ok b.outputs
  types : (FunctionPolicy.takeConcrete b.inputs).2 = .ok b.types

end Program

namespace FunctionPolicy

section Build

variable {p : Program} {s : Section} {f f' : FunctionPolicy}

theorem makes_declared_bind {β : Type} {vs : List Node} {g : Unit → Change β} {b : β} (tidy : f.Tidy) (void : f.listed s = []) :
    Makes ((vs.forM fun v => do let _ ← add p s v "") >>= g) f b f' ↔
      ∃ es, p.declaredEntries s vs = .ok es ∧ Makes (g ()) (f.extended s es) b f' := by
  refine makes_forM_bind (fun v f f' tidy => ?_) (fun v es es' => added_ne_nil) tidy void
  rw [← makes_add_iff tidy,makes_bind]
  constructor
  · rintro ⟨b,g,made,last⟩
    obtain ⟨-,rfl⟩ := makes_pure.1 last
    exact ⟨b,made⟩
  · rintro ⟨b,made⟩
    exact ⟨b,f',made,makes_pure.2 ⟨rfl,rfl⟩⟩

theorem makes_noted_bind {β : Type} {as : List Access} {g : Unit → Change β} {b : β} (tidy : f.Tidy) (void : f.listed s = []) :
    Makes ((as.forM fun a => if p.notes s a then addIndexed p s (p.viaOf a) else pure ()) >>= g) f b f' ↔
      ∃ es, p.notedEntries s as = .ok es ∧ Makes (g ()) (f.extended s es) b f' := by
  rw [forM_filter]
  refine makes_forM_bind (fun a f f' tidy => ?_) (fun a es es' made => ?_) tidy void
  · simp only [Program.withAccess,addIndexed,makes_lift_bind,bind_ok]
    constructor
    · rintro ⟨⟨var,key⟩,visited,made⟩
      obtain ⟨b,g,added,last⟩ := makes_bind.1 made
      obtain ⟨-,rfl⟩ := makes_pure.1 last
      obtain ⟨es,made,eq⟩ := (makes_add_iff tidy).1 ⟨b,added⟩
      exact ⟨es,⟨_,visited,made⟩,eq⟩
    · rintro ⟨es,⟨⟨var,key⟩,visited,made⟩,eq⟩
      obtain ⟨b,made⟩ := (makes_add_iff tidy).2 ⟨es,made,eq⟩
      exact ⟨_,visited,makes_bind.2 ⟨b,_,made,makes_pure.2 ⟨rfl,rfl⟩⟩⟩
  · obtain ⟨_,-,made⟩ := bind_ok.1 made
    exact added_ne_nil made

theorem takeConcrete_fst (es : List Entry) :
    (takeConcrete es).1.map (fun e => (e.name,e.keys)) = es.map fun e => (e.name,e.keys) := by
  induction es with
  | nil => rfl
  | cons _ _ ih =>
    unfold takeConcrete
    split
    · rfl
    · simpa using ih

theorem makes_setSelector_iff (tidy : f.Tidy) : Makes setSelector f () f' ↔
    ∃ types, (takeConcrete (f.listed .inputs)).2 = .ok types ∧
      f' = { f.extended .inputs (takeConcrete (f.listed .inputs)).1 with
        selector := some (selectorOf (signature f.name types)) } := by
  have kept : (if (f.entries? .inputs).isSome then f.setEntries .inputs (takeConcrete (f.listed .inputs)).1 else f) =
      f.extended .inputs (takeConcrete (f.listed .inputs)).1 := by
    unfold extended
    cases known : f.entries? .inputs with
    | none => simp [listed,known,takeConcrete]
    | some es =>
      cases es with
      | nil => simp [listed,known,takeConcrete,setEntries_self tidy known]
      | cons e es =>
        have kept := takeConcrete_fst (e :: es)
        cases after : (takeConcrete (e :: es)).1 with
        | nil => simp [after] at kept
        | cons => simp [listed,known,after]
  rw [← kept,setSelector,makes_get_bind]
  dsimp only
  split <;> simp only [makes_set_bind,makes_lift_bind,makes_modify,eq_comm,name_setEntries]

def assembled (f : FunctionPolicy) (b : Parts) : FunctionPolicy :=
  { ((((f.extended .inputs b.inputs).extended .read b.read).extended .mutate b.mutate).extended .outputs b.outputs).extended
      .inputs (takeConcrete b.inputs).1 with
    selector := some (selectorOf (signature f.name b.types)) }

theorem makes_build_iff {ps rs : List Node} {reads writes : List Access} (empty : f.sections = []) :
    Makes (build p ps rs reads writes) f () f' ↔ ∃ b, Program.Describes p ps rs reads writes b ∧ f' = f.assembled b := by
  have tidy : f.Tidy := by simp [Tidy,empty]
  have void (s : Section) : f.listed s = [] := by simp [listed,entries?,empty]
  have accesses : build p ps rs reads writes = (do
      ps.forM fun v => do let _ ← add p .inputs v ""
      reads.forM fun a => if p.notes .read a then addIndexed p .read (p.viaOf a) else pure ()
      writes.forM fun a => if p.notes .mutate a then addIndexed p .mutate (p.viaOf a) else pure ()
      rs.forM fun v => do let _ ← add p .outputs v ""
      setSelector) := rfl
  rw [accesses]
  simp (disch := grind [tidy_extended,listed_extended]) only [makes_declared_bind,makes_noted_bind,makes_setSelector_iff]
  have inputs (ins rd wr outs : List Entry) : ((((f.extended .inputs ins).extended .read rd).extended .mutate wr).extended
      .outputs outs).listed .inputs = ins := by grind [listed_extended]
  simp only [inputs,name_extended,assembled]
  constructor
  · rintro ⟨ins,h₁,rd,h₂,wr,h₃,outs,h₄,types,h₅,rfl⟩
    exact ⟨⟨ins,rd,wr,outs,types⟩,⟨h₁,h₂,h₃,h₄,h₅⟩,rfl⟩
  · rintro ⟨b,h,rfl⟩
    exact ⟨_,h.inputs,_,h.read,_,h.mutate,_,h.outputs,_,h.types,rfl⟩

theorem name_assembled (f : FunctionPolicy) (b : Parts) : (f.assembled b).name = f.name := by
  simp only [assembled,name_extended]

theorem listed_assembled (empty : f.sections = []) (b : Parts) (s : Section) : (f.assembled b).listed s = match s with
    | .inputs => (takeConcrete b.inputs).1
    | .read => b.read
    | .mutate => b.mutate
    | .outputs => b.outputs := by
  have void (s : Section) : f.listed s = [] := by simp [listed,entries?,empty]
  have kept : (takeConcrete b.inputs).1 = [] → b.inputs = [] := by
    intro nil
    simpa [nil] using takeConcrete_fst b.inputs
  change (FunctionPolicy.extended ..).listed s = _
  cases s <;> grind [listed_extended]

end Build

end FunctionPolicy

/-! ### Listed keys -/

namespace Entry

variable {e : Entry}

def Lists (es : List Entry) (name key : String) : Prop :=
  ∃ e ∈ es, e.name = some name ∧ key ∈ e.keys.getD []

theorem mem_withKey {key x : String} : x ∈ (e.withKey key).keys.getD [] ↔ x ∈ e.keys.getD [] ∨ x = key := by
  unfold withKey
  split
  next => simp
  next known =>
    rw [Bool.not_eq_true,Bool.not_eq_false',contains_iff_mem] at known
    grind

theorem exists_mem_modify {P : Entry → Prop} {es : List Entry} {k : Nat} {g : Entry → Entry}
    (found : es[k]? = some e) (more : P e → P (g e)) : (∃ a ∈ es.modify k g, P a) ↔ (∃ a ∈ es, P a) ∨ P (g e) := by
  simp only [mem_iff_getElem?,getElem?_modify]
  constructor
  · rintro ⟨a,⟨i,at'⟩,ha⟩
    by_cases same : k = i
    · subst same
      simp only [found,if_true,Option.map_eq_map,Option.map_some,Option.some.injEq] at at'
      exact .inr (at' ▸ ha)
    · simp only [same,if_false,Option.map_eq_map,Option.map_id'] at at'
      exact .inl ⟨a,⟨i,at'⟩,ha⟩
  · rintro (⟨a,⟨i,at'⟩,ha⟩ | ha)
    · by_cases same : k = i
      · subst same
        cases found.symm.trans at'
        exact ⟨g e,⟨k,by simp [found]⟩,more ha⟩
      · exact ⟨a,⟨i,by simp [same,at']⟩,ha⟩
    · exact ⟨g e,⟨k,by simp [found]⟩,ha⟩

end Entry

def Program.Keyed (p : Program) (var : Node) (name : String) : Prop :=
  FunctionPolicy.isMappingState p var = .ok true ∧ Program.nameText var = .ok name

def Program.UsesKey (p : Program) (via : Node) (name key : String) : Prop :=
  ∃ var text, p.visitedMapping via = .ok (var,text) ∧ p.Keyed var name ∧ key = Text.eraseAnnotations text

namespace FunctionPolicy

def Lists (f : FunctionPolicy) (s : Section) (name key : String) : Prop :=
  ∃ e ∈ (f.entries? s).getD [], e.name = some name ∧ key ∈ e.keys.getD []

instance (f : FunctionPolicy) (s : Section) (name key : String) : Decidable (f.Lists s name key) :=
  inferInstanceAs (Decidable (∃ e ∈ (f.entries? s).getD [], e.name = some name ∧ key ∈ e.keys.getD []))

variable {f : FunctionPolicy} {p : Program}

variable {s : Section} {es : List Entry} {n : Node}

theorem lists_added {var : Node} {key : String} {es' : List Entry} (h : added p s var key es = .ok es') (name x : String) :
    Entry.Lists es' name x ↔ Entry.Lists es name x ∨ p.Keyed var name ∧ x = Text.eraseAnnotations key := by
  obtain ⟨k,es₁,mapping,entered,asked,rfl⟩ := added_eq_ok h
  obtain ⟨e,there,named,same⟩ := entered_eq_ok entered
  have before : Entry.Lists es₁ name x ↔ Entry.Lists es name x := by
    obtain ⟨rfl,-⟩ | ⟨-,keys,-,rfl⟩ := same
    · rfl
    · simp [Entry.Lists,keys,or_and_right,exists_or]
  rw [← before,Program.Keyed,asked]
  cases mapping with
  | false => simp
  | true =>
    have old : e.name = some name → x ∈ e.keys.getD [] → Entry.Lists es₁ name x :=
      fun named listed => ⟨e,mem_of_getElem? there,named,listed⟩
    rw [if_pos rfl,Entry.Lists,Entry.exists_mem_modify there fun h => ⟨h.1,Entry.mem_withKey.2 (.inl h.2)⟩]
    simp only [Entry.mem_withKey,← named name]
    grind [Entry.withKey,Entry.Lists]

theorem lists_notedEntries {as : List Access} (h : p.notedEntries s as = .ok es) :
    (∀ a ∈ as, p.notes s a → ∃ r, p.visitedMapping (p.viaOf a) = .ok r) ∧
      ∀ name key, Entry.Lists es name key ↔ ∃ a ∈ as, p.notes s a ∧ p.UsesKey (p.viaOf a) name key := by
  have folded : ∀ (as : List Access) {es es' : List Entry}, as.foldlM (p.withAccess s) es = .ok es' →
      (∀ a ∈ as, ∃ r, p.visitedMapping (p.viaOf a) = .ok r) ∧
        ∀ name key, Entry.Lists es' name key ↔ Entry.Lists es name key ∨ ∃ a ∈ as, p.UsesKey (p.viaOf a) name key := by
    intro as
    induction as with
    | nil =>
      intro es es' h
      cases h
      simp
    | cons _ _ ih =>
      intro es es' h
      obtain ⟨es₁,first,rest⟩ := bind_ok.1 h
      obtain ⟨⟨var,text⟩,visited,first⟩ := bind_ok.1 first
      obtain ⟨each,lists⟩ := ih rest
      refine ⟨forall_mem_cons.2 ⟨⟨_,visited⟩,each⟩,fun name key => ?_⟩
      rw [lists,lists_added first]
      simp [Program.UsesKey,visited,or_assoc]
  obtain ⟨visited,lists⟩ := folded _ h
  simpa [Entry.Lists,and_assoc] using And.intro visited lists

structure Covers (p : Program) (name : String) (reads writes : List Access) (f : FunctionPolicy) : Prop where
  name_eq : f.name = name
  visited_read : ∀ a ∈ reads, p.notes .read a = true → ∃ r, p.visitedMapping (p.viaOf a) = .ok r
  visited_mutate : ∀ a ∈ writes, p.notes .mutate a = true → ∃ r, p.visitedMapping (p.viaOf a) = .ok r
  read : ∀ name key, f.Lists .read name key ↔ ∃ a ∈ reads, p.notes .read a = true ∧ p.UsesKey (p.viaOf a) name key
  mutate : ∀ name key, f.Lists .mutate name key ↔ ∃ a ∈ writes, p.notes .mutate a = true ∧ p.UsesKey (p.viaOf a) name key

theorem ofFunction_eq_ok_iff : ofFunction p n = .ok f ↔
    ∃ i label parameters modifiers results body kind name, n = .function i label parameters modifiers results body kind ∧
      Program.nameText n = .ok name ∧ ∃ b, p.Describes (parameters.getD []) results (p.read.getD n.id []) (p.modified.getD n.id []) b ∧
        f = assembled { name, privacy := (p.facts n).privacy } b := by
  constructor
  · intro h
    unfold ofFunction at h
    split at h
    next i label parameters modifiers results body kind =>
      obtain ⟨name,named,h⟩ := bind_ok.1 h
      dsimp only at h
      split at h
      next made =>
        cases h
        exact ⟨i,label,parameters,modifiers,results,body,kind,name,rfl,named,(makes_build_iff rfl).1 made⟩
      next => cases h
    next => cases h
  · rintro ⟨i,label,parameters,modifiers,results,body,kind,name,rfl,named,described⟩
    refine bind_ok.2 ⟨name,named,?_⟩
    have made := (makes_build_iff rfl).2 described
    unfold Makes at made
    simp only [made]
    rfl

theorem covers_ofFunction (h : ofFunction p n = .ok f) :
    ∃ name, Program.nameText n = .ok name ∧ Covers p name (p.read.getD n.id []) (p.modified.getD n.id []) f := by
  obtain ⟨i,label,ps,modifiers,rs,body,kind,name,rfl,named,b,described,rfl⟩ := ofFunction_eq_ok_iff.1 h
  obtain ⟨visited,read⟩ := lists_notedEntries described.read
  obtain ⟨visited',mutate⟩ := lists_notedEntries described.mutate
  refine ⟨name,named,name_assembled ..,visited,visited',fun x key => ?_,fun x key => ?_⟩
  · change Entry.Lists (FunctionPolicy.listed _ .read) x key ↔ _
    rw [listed_assembled rfl b .read,read]
  · change Entry.Lists (FunctionPolicy.listed _ .mutate) x key ↔ _
    rw [listed_assembled rfl b .mutate,mutate]

end FunctionPolicy

namespace PrivacyPolicy

variable {p : Program} {policy policy' : PrivacyPolicy}

theorem functions_of_foldlM {ns : List Node} (h : ns.foldlM (visit p) policy = .ok policy') :
    ∃ fs, (ns.filter (·.isFunction)).mapM (FunctionPolicy.ofFunction p) = .ok fs ∧ policy'.functions = policy.functions ++ fs := by
  induction ns generalizing policy with
  | nil =>
    cases h
    exact ⟨[],rfl,(append_nil _).symm⟩
  | cons n _ ih =>
    rw [foldlM_cons] at h
    obtain ⟨next,first,rest⟩ := bind_ok.1 h
    obtain ⟨fs,made,eq⟩ := ih rest
    have step : (n.isFunction = false ∧ next.functions = policy.functions) ∨
        n.isFunction ∧ ∃ f, FunctionPolicy.ofFunction p n = .ok f ∧ next.functions = policy.functions ++ [f] := by
      unfold visit at first
      split at first
      · obtain ⟨e,-,first⟩ := bind_ok.1 first
        cases first
        exact .inl ⟨rfl,rfl⟩
      · obtain ⟨f,made,first⟩ := bind_ok.1 first
        cases first
        exact .inr ⟨rfl,f,made,rfl⟩
      · obtain ⟨name,-,first⟩ := bind_ok.1 first
        cases first
        exact .inl ⟨rfl,rfl⟩
      next other _ =>
        cases first
        refine .inl ⟨?_,rfl⟩
        cases n <;> first | exact (other _ _ _ _ _ _ _ rfl).elim | rfl
    obtain ⟨other,same⟩ | ⟨function,f,here,added⟩ := step
    · exact ⟨fs,by rw [filter_cons_of_neg (by simp [other]),made],by rw [eq,same]⟩
    · refine ⟨f :: fs,?_,by rw [eq,added,append_assoc]; rfl⟩
      rw [filter_cons_of_pos function]
      exact Outcome.mapM_eq_ok.2 (.cons here (Outcome.mapM_eq_ok.1 made))

theorem functions_of_ofProgram (h : ofProgram p = .ok policy) :
    (p.tree.postorder.filter (·.isFunction)).mapM (FunctionPolicy.ofFunction p) = .ok policy.functions := by
  obtain ⟨whole,folded,h⟩ := bind_ok.1 h
  dsimp only at h
  split at h
  · cases h
  · cases h
    obtain ⟨fs,made,eq⟩ := functions_of_foldlM folded
    rw [made,sortStates,eq]
    rfl

theorem exists_of_ofProgram {n : Node} (h : ofProgram p = .ok policy) (hn : n ∈ p.tree.postorder)
    (function : n.isFunction) : ∃ f ∈ policy.functions, FunctionPolicy.ofFunction p n = .ok f := by
  exact forall₂_exists_of_mem (Outcome.mapM_eq_ok.1 (functions_of_ofProgram h)) (mem_filter.2 ⟨hn,function⟩)

end PrivacyPolicy
end Confidential
