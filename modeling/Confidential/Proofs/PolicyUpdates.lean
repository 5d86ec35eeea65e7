import Confidential.Proofs.EquivalenceClasses
import Confidential.Proofs.PolicyEntries

/-!
Updates of the policy of a function.
-/

namespace Confidential

open List Node

namespace FunctionPolicy

structure Update where
  into : Section
  var : Node
  key : String

namespace Update

def apply (p : Program) (u : Update) : Change Bool :=
  add p u.into u.var u.key

/-- The policy after the update, also if the update fails. -/
def applied (p : Program) (f : FunctionPolicy) (u : Update) : FunctionPolicy :=
  ((u.apply p).run f).2

def answer (p : Program) (f : FunctionPolicy) (u : Update) : Outcome Bool :=
  ((u.apply p).run f).1

/-- The variable has a name and a declared type. -/
structure Proper (p : Program) (u : Update) : Prop where
  named : ∃ x, Program.nameText u.var = .ok x
  typed : ∃ t, annotatedType p u.var = .ok t

def name (u : Update) : String :=
  match Program.nameText u.var with
  | .ok x => x
  | .error _ => ""

/-- The key that the update adds to an entry. -/
def newKey? (p : Program) (u : Update) : Option String :=
  match isMappingState p u.var with
  | .ok true => some (Text.eraseAnnotations u.key)
  | _ => none

end Update

/-- The policy after some updates. -/
def after (p : Program) (f : FunctionPolicy) (us : List Update) : FunctionPolicy :=
  us.foldl (Update.applied p) f

/-- The updates that do not fail. -/
def accepted (p : Program) : FunctionPolicy → List Update → List Update
  | _, [] => []
  | f, u :: us =>
    match u.answer p f with
    | .ok _ => u :: accepted p (u.applied p f) us
    | .error _ => accepted p (u.applied p f) us

/-- The names and keys that updates give for a section. -/
def given (p : Program) (s : Section) (us : List Update) : List (String × Option String) :=
  (us.filter (·.into = s)).map fun u => (u.name,u.newKey? p)

end FunctionPolicy

namespace Entry

/-- The second entry is the first one, or has one key more. -/
def Appended (e e' : Entry) : Prop :=
  e' = e ∨ ∃ k, e' = { e with keys := some (e.keys.getD [] ++ [k]) }

/-- What an update for the name `x` makes of a list of entries, and whether it changes it. -/
inductive Updates (x : String) (key : Option String) (es : List Entry) : Bool → List Entry → Prop
  | known {e : Entry} (mem : e ∈ es) (named : e.name = some x) (listed : ∀ k ∈ key, k ∈ e.keys.getD []) :
      Updates x key es false es
  | entered {e : Entry} (fresh : ∀ e ∈ es, e.name ≠ some x) (named : e.name = some x) (keys : e.keys.getD [] = key.toList) :
      Updates x key es true (es ++ [e])
  | keyed {before after : List Entry} {e : Entry} {k : String} (split : es = before ++ e :: after) (named : e.name = some x)
      (asked : key = some k) (new : k ∉ e.keys.getD []) :
      Updates x key es true (before ++ { e with keys := some (e.keys.getD [] ++ [k]) } :: after)

namespace Updates

variable {x : String} {key : Option String} {es es' : List Entry} {b : Bool}

theorem appended_take (h : Updates x key es b es') : Forall₂ Appended es (es'.take es.length) := by
  have same (es : List Entry) : Forall₂ Appended es es := forall₂_same.2 fun _ _ => .inl rfl
  cases h with
  | known =>
    rw [take_length]
    exact same es
  | entered =>
    rw [take_left]
    exact same es
  | @keyed before after e k split =>
    rw [split,take_of_length_le (by simp)]
    exact rel_append (same before) (.cons (.inr ⟨k,rfl⟩) (same after))

theorem changed_iff (h : Updates x key es b es') : b ↔ es' ≠ es := by
  cases h with
  | known | entered => simp
  | @keyed before after e k split named asked new =>
    have changed : e ≠ { e with keys := some (e.keys.getD [] ++ [k]) } := by
      intro same
      have keys := congrArg (fun e : Entry => e.keys.getD []) same
      simp at keys
    simp [split,changed.symm]

end Updates

/-- The keys that are given for a name. -/
def keysGiven (cs : List (String × Option String)) (x : String) : List String :=
  (cs.filter (·.1 = x)).filterMap (·.2)

theorem keysGiven_concat (cs : List (String × Option String)) (x y : String) (key : Option String) :
    keysGiven (cs ++ [(x,key)]) y = keysGiven cs y ++ if y = x then key.toList else [] := by
  rw [keysGiven,filter_append,filterMap_append,keysGiven]
  split
  next same => cases key <;> simp [same]
  next other => simp [Ne.symm other]

theorem eraseDups_concat (l : List String) (a : String) :
    (l ++ [a]).eraseDups = if a ∈ l then l.eraseDups else l.eraseDups ++ [a] := by
  rw [eraseDups_append]
  by_cases known : a ∈ l <;> simp [List.removeAll,known,eraseDups_cons]

/-- The entries are those for the given names and keys, without repetitions and in the order of first use. -/
structure Reflects (es : List Entry) (cs : List (String × Option String)) : Prop where
  names : es.map (·.name) = (cs.map (·.1)).eraseDups.map some
  keys : ∀ e ∈ es, ∀ x, e.name = some x → e.keys.getD [] = (keysGiven cs x).eraseDups

namespace Reflects

variable {x : String} {key : Option String} {es es' : List Entry} {b : Bool} {cs : List (String × Option String)}

theorem nodup_names (h : Reflects es cs) : (es.map (·.name)).Nodup := by
  rw [h.names]
  exact (Partition.nodup_eraseDups _).map (Option.some_injective _)

theorem exists_mem_iff (h : Reflects es cs) : (∃ e ∈ es, e.name = some x) ↔ x ∈ cs.map (·.1) := by
  rw [← mem_eraseDups,← mem_map_of_injective (Option.some_injective _),← h.names,mem_map]

theorem named (h : Reflects es cs) {e : Entry} (he : e ∈ es) : e.name ≠ none := by
  have mem : e.name ∈ es.map (·.name) := mem_map_of_mem he
  rw [h.names,mem_map] at mem
  obtain ⟨x,-,eq⟩ := mem
  simp [← eq]

theorem concat (h : Reflects es cs) (updates : Updates x key es b es') : Reflects es' (cs ++ [(x,key)]) := by
  have names : ((cs ++ [(x,key)]).map (·.1)).eraseDups =
      if x ∈ cs.map (·.1) then (cs.map (·.1)).eraseDups else (cs.map (·.1)).eraseDups ++ [x] := by
    rw [map_append]
    exact eraseDups_concat _ x
  have others {e : Entry} (he : e ∈ es) {y : String} (named : e.name = some y) (other : y ≠ x) :
      e.keys.getD [] = (keysGiven (cs ++ [(x,key)]) y).eraseDups := by
    rw [keysGiven_concat,if_neg other,append_nil,h.keys e he y named]
  have nodup := h.nodup_names
  cases updates with
  | @known e mem named listed =>
    refine ⟨by rw [names,if_pos (h.exists_mem_iff.1 ⟨e,mem,named⟩),h.names],fun e' he' y named' => ?_⟩
    by_cases same : y = x
    · obtain rfl : e' = e := inj_on_of_nodup_map nodup he' mem (by rw [named,named',same])
      rw [keysGiven_concat,if_pos same]
      have before := h.keys e' mem y named'
      cases key with
      | none => rw [Option.toList_none,append_nil,before]
      | some k =>
        have known : k ∈ keysGiven cs y := by
          rw [← mem_eraseDups,← before]
          exact listed k rfl
        rw [Option.toList_some,eraseDups_concat,if_pos known,before]
    · exact others he' named' same
  | @entered e fresh named new =>
    have absent : x ∉ cs.map (·.1) := fun mem => by
      obtain ⟨e',he',named'⟩ := h.exists_mem_iff.2 mem
      exact fresh e' he' named'
    refine ⟨by rw [names,if_neg absent,map_append,map_append,h.names,map_singleton,named]; rfl,
      fun e' he' y named' => ?_⟩
    obtain he' | rfl := (mem_append.1 he').imp_right mem_singleton.1
    · exact others he' named' fun same => fresh e' he' (same ▸ named')
    · obtain rfl : y = x := Option.some.inj (named'.symm.trans named)
      have void : keysGiven cs y = [] := by
        rw [keysGiven,filter_eq_nil_iff.2,filterMap_nil]
        intro c hc
        have other : c.1 ≠ y := fun same => absent (same ▸ mem_map_of_mem hc)
        simpa using other
      rw [keysGiven_concat,if_pos rfl,void,nil_append,new]
      cases key <;> simp [eraseDups_cons]
  | @keyed before after e k split named asked new =>
    subst split asked
    have mem : e ∈ before ++ e :: after := by simp
    have listed := h.keys e mem x named
    refine ⟨?_,fun e' he' y named' => ?_⟩
    · rw [names,if_pos (h.exists_mem_iff.1 ⟨e,mem,named⟩),← h.names]
      simp
    · have other {e' : Entry} (he' : e' ∈ before ∨ e' ∈ after) : e'.name ≠ some x := by
        rw [← named]
        rw [map_append,map_cons,nodup_middle] at nodup
        intro same
        refine (nodup_cons.1 nodup).1 ?_
        rw [← same,← map_append]
        exact mem_map_of_mem (mem_append.2 he')
      rw [mem_append,mem_cons,or_left_comm] at he'
      obtain rfl | he' := he'
      · obtain rfl : y = x := Option.some.inj (named'.symm.trans named)
        have fresh : k ∉ keysGiven cs y := by rwa [← mem_eraseDups,← listed]
        rw [keysGiven_concat,if_pos rfl,Option.toList_some,eraseDups_concat,if_neg fresh,← listed]
        rfl
      · refine others ?_ named' fun same => other he' (same ▸ named')
        rw [mem_append,mem_cons]
        exact he'.imp_right .inr

end Reflects

end Entry
namespace FunctionPolicy

variable {p : Program} {u : Update}

variable {var : Node} {k x : String} {e : Entry}

theorem isMappingState_eq_ok (typed : ∃ t, annotatedType p var = .ok t) : ∃ b, isMappingState p var = .ok b := by
  unfold isMappingState
  obtain ⟨t,typed⟩ := typed
  split
  · exact ⟨false,rfl⟩
  · exact ⟨_,by rw [typed]; rfl⟩

theorem Update.Proper.nameText (h : u.Proper p) : Program.nameText u.var = .ok u.name := by
  obtain ⟨x,named⟩ := h.named
  rw [Update.name,named]

theorem entryFor?_eq_findName (named : Program.nameText var = .ok x) (es : List Entry) :
    entryFor? var es = findName x es := by
  unfold Program.nameText at named
  unfold entryFor? declaredName
  split at named
  next known =>
    cases named
    rw [known]
    rfl
  next => cases named

theorem withKey_eq_self (listed : k ∈ e.keys.getD []) : e.withKey k = e := by
  obtain ⟨name,type,shape,concrete,ownership,keys⟩ := e
  cases keys with
  | none => simp at listed
  | some => simpa [Entry.withKey] using listed

theorem updates_modify {i : Nat} {es : List Entry} (there : es[i]? = some e) (named : e.name = some x) :
    Entry.Updates x (some k) es (!(e.keys.getD []).contains k) (es.modify i (·.withKey k)) := by
  obtain ⟨lt,eq⟩ := List.getElem?_eq_some_iff.1 there
  rw [modify_eq_take_cons_drop lt,eq]
  have split : es = es.take i ++ e :: es.drop (i + 1) := by simp [← eq]
  by_cases listed : k ∈ e.keys.getD []
  · rw [withKey_eq_self listed,← split,contains_iff_mem.2 listed]
    exact .known (mem_of_getElem? there) named fun _ h => Option.mem_some_iff.1 h ▸ listed
  · have new : e.withKey k = { e with keys := some (e.keys.getD [] ++ [k]) } := by simp [Entry.withKey,listed]
    rw [new,show (e.keys.getD []).contains k = false by simpa using listed]
    exact .keyed split named rfl listed

theorem Update.Proper.updates (h : u.Proper p) (es : List Entry) :
    (∃ fault, updated p u.into u.var u.key es = (.error fault,es)) ∨
      ∃ b es', updated p u.into u.var u.key es = (.ok b,es') ∧ Entry.Updates u.name (u.newKey? p) es b es' := by
  obtain ⟨keyed,asked⟩ := isMappingState_eq_ok h.typed
  unfold updated Update.newKey?
  rw [asked]
  cases found : entryFor? u.var es with
  | error fault => exact .inl ⟨fault,rfl⟩
  | ok place =>
    cases place with
    | some =>
      obtain ⟨e,there,isFor,-⟩ := entryFor?_eq_some found
      have named : e.name = some u.name := (isFor u.name).2 h.nameText
      refine .inr ⟨_,_,rfl,?_⟩
      cases keyed with
      | false => exact .known (mem_of_getElem? there) named (by simp)
      | true =>
        simp only [lacksKey,there,Bool.false_or,Bool.true_and,Option.bind_some,if_true]
        exact updates_modify there named
    | none =>
      rw [entryFor?_eq_findName h.nameText] at found
      have fresh (e : Entry) (he : e ∈ es) : e.name ≠ some u.name := (findName_eq_none_iff.1 found e he).2
      cases made : newEntry p u.into u.var with
      | error fault => exact .inl ⟨fault,rfl⟩
      | ok e =>
        obtain ⟨isFor,keys⟩ := yields_newEntry p u.into u.var e made
        have named : e.name = some u.name := (isFor u.name).2 h.nameText
        refine .inr ⟨true,_,rfl,?_⟩
        cases keyed with
        | false => exact .entered fresh named (by simp [keys])
        | true =>
          rw [if_pos rfl,Entry.modify_length]
          exact .entered fresh named (by simp [Entry.withKey,keys])

/-! ### Runs of updates -/

variable {f : FunctionPolicy} {us : List Update}

theorem tidy_applied (h : f.Tidy) (u : Update) : (u.applied p f).Tidy := by
  rw [Update.applied,Update.apply,run_add p h]
  exact tidy_setEntries h ..

theorem tidy_after (h : f.Tidy) (us : List Update) : (after p f us).Tidy := by
  induction us generalizing f with
  | nil => exact h
  | cons u _ ih => exact ih (tidy_applied h u)

theorem after_concat (us : List Update) (u : Update) : after p f (us ++ [u]) = u.applied p (after p f us) :=
  foldl_concat ..

theorem accepted_concat (us : List Update) (u : Update) : accepted p f (us ++ [u]) =
    accepted p f us ++ match u.answer p (after p f us) with | .ok _ => [u] | .error _ => [] := by
  induction us generalizing f with
  | nil => rfl
  | cons v _ ih =>
    rw [cons_append,accepted,accepted,ih]
    cases v.answer p f <;> rfl

theorem given_append (s : Section) (us vs : List Update) : given p s (us ++ vs) = given p s us ++ given p s vs := by
  rw [given,filter_append,map_append,given,given]

/-- One update: only the entries of its own section can change. -/
theorem Update.Proper.step (h : u.Proper p) (tidy : f.Tidy) :
    (∃ fault, u.answer p f = .error fault ∧ ∀ s, (u.applied p f).listed s = f.listed s) ∨
      ∃ b es, u.answer p f = .ok b ∧ Entry.Updates u.name (u.newKey? p) (f.listed u.into) b es ∧
        ∀ s, (u.applied p f).listed s = if s = u.into then es else f.listed s := by
  unfold Update.answer Update.applied Update.apply
  rw [run_add p tidy]
  obtain ⟨fault,eq⟩ | ⟨b,es,eq,updates⟩ := h.updates (f.listed u.into)
  · refine .inl ⟨fault,by rw [eq],fun s => ?_⟩
    rw [eq,listed_setEntries]
    split
    next same => rw [same]
    next => rfl
  · refine .inr ⟨b,es,by rw [eq],updates,fun s => ?_⟩
    rw [eq,listed_setEntries]

theorem reflects_after (fresh : f.sections = []) (proper : ∀ u ∈ us, u.Proper p) (s : Section) :
    Entry.Reflects ((after p f us).listed s) (given p s (accepted p f us)) := by
  have tidy : f.Tidy := by simp [Tidy,fresh]
  induction us using List.reverseRecOn with
  | nil => exact ⟨by simp [after,listed,entries?,fresh,accepted,given],by simp [after,listed,entries?,fresh]⟩
  | append_singleton us _ ih =>
    rw [forall_mem_append,forall_mem_singleton] at proper
    rw [after_concat,accepted_concat,given_append]
    obtain ⟨fault,answer,same⟩ | ⟨b,es,answer,updates,eq⟩ := proper.2.step (tidy_after (p := p) tidy us)
    · rw [answer,same]
      simpa [given] using ih proper.1
    · rw [answer,eq]
      split
      next here =>
        subst here
        simpa [given] using (ih proper.1).concat updates
      next other => simpa [given,Ne.symm other] using ih proper.1

/-- After any updates of a new policy no name is listed twice in a section and no key twice in an entry, and both stand
in the order of their first insertion. Every update only appends, and tells whether it changed an entry. -/
theorem updates_without_duplicates (fresh : f.sections = []) (proper : ∀ u ∈ us, u.Proper p) :
    (∀ s, (((after p f us).listed s).map (·.name)).Nodup ∧ (∀ e ∈ (after p f us).listed s, (e.keys.getD []).Nodup) ∧
      Entry.Reflects ((after p f us).listed s) (given p s (accepted p f us))) ∧
    ∀ before u rest, us = before ++ u :: rest →
      (∀ s, List.Forall₂ Entry.Appended ((after p f before).listed s)
        (((after p f (before ++ [u])).listed s).take ((after p f before).listed s).length)) ∧
      (u.answer p (after p f before) = .ok true ↔
        ∃ s, (after p f (before ++ [u])).listed s ≠ (after p f before).listed s) := by
  constructor
  · intro s
    have reflects := reflects_after fresh proper s
    refine ⟨reflects.nodup_names,fun e he => ?_,reflects⟩
    obtain ⟨x,named⟩ := Option.ne_none_iff_exists'.1 (reflects.named he)
    rw [reflects.keys e he x named]
    exact Partition.nodup_eraseDups _
  · rintro before u rest rfl
    have tidy : f.Tidy := by simp [Tidy,fresh]
    have same (es : List Entry) : List.Forall₂ Entry.Appended es (es.take es.length) := by
      rw [take_length]
      exact forall₂_same.2 fun _ _ => .inl rfl
    rw [after_concat]
    obtain ⟨fault,answer,kept⟩ | ⟨b,es,answer,updates,eq⟩ := (proper u (by simp)).step (tidy_after (p := p) tidy before)
    · exact ⟨fun s => by rw [kept]; exact same _,by simp [answer,kept]⟩
    · refine ⟨fun s => ?_,?_⟩
      · rw [eq]
        split
        next here =>
          subst here
          exact updates.appended_take
        next => exact same _
      · rw [answer,Except.ok.injEq,updates.changed_iff]
        simp [eq]

def mappingVariable : Node :=
  let word : Node := .elementary {} (.uint "uint" 256)
  .stateVariable {} (Program.publicType (.mapping {} word .omitted (Program.publicType word))) [] (.identifier {} "m") .omitted .omitted

def mappingReads : List Update :=
  ["a","b","a"].map fun key => ⟨.read,mappingVariable,key⟩

/-- A key of a mapping that is read again is not listed again. -/
theorem mappingReads_listed_once :
    Entry.Reflects ((after {} {} mappingReads).listed .read) [("m",some "a"),("m",some "b"),("m",some "a")] ∧
      ∀ s, (after {} {} mappingReads).listed s = (after {} {} (mappingReads.take 2)).listed s := by
  have proper : ∀ u ∈ mappingReads, u.Proper {} :=
    forall_mem_map.2 fun _ _ => ⟨⟨"m",rfl⟩,⟨_,rfl⟩⟩
  obtain ⟨all,each⟩ := updates_without_duplicates (f := {}) rfl proper
  have keys : given {} .read (accepted {} {} mappingReads) = [("m",some "a"),("m",some "b"),("m",some "a")] := by
    decide +kernel
  refine ⟨keys ▸ (all .read).2.2,fun s => ?_⟩
  have answer : Update.answer {} (after {} {} (mappingReads.take 2)) ⟨.read,mappingVariable,"a"⟩ ≠ .ok true := by
    decide +kernel
  have same := (each (mappingReads.take 2) ⟨.read,mappingVariable,"a"⟩ [] rfl).2.not.1 answer
  push Not at same
  exact same s

end FunctionPolicy
end Confidential
