import Confidential.Proofs.MappingAccesses

/-!
The order of what a function reads.
-/

namespace Confidential

open List Node Pass
open FunctionPolicy (ofFunction)

namespace EffectsOnly

variable {p p' : Program} (h : EffectsOnly p p')
include h

theorem add : FunctionPolicy.add p' = FunctionPolicy.add p := by
  rw [h]
  rfl

theorem addIndexed : FunctionPolicy.addIndexed p' = FunctionPolicy.addIndexed p := by
  funext s via
  rw [FunctionPolicy.addIndexed,h.visitedMapping,h.add,FunctionPolicy.addIndexed]

theorem build : FunctionPolicy.build p' = FunctionPolicy.build p := by
  funext parameters results reads writes
  unfold FunctionPolicy.build
  simp only [h.add,h.addIndexed,h.accessTarget,funext h.node]

theorem ofVariable : StateEntry.ofVariable p' = StateEntry.ofVariable p := by
  rw [h]
  rfl

theorem ofFunction (read : p'.read = p.read) (modified : p'.modified = p.modified) :
    FunctionPolicy.ofFunction p' = FunctionPolicy.ofFunction p := by
  have facts : p'.facts = p.facts := by
    rw [h]
    rfl
  funext n
  unfold FunctionPolicy.ofFunction
  rw [h.build,read,modified,facts]

end EffectsOnly

namespace Entry

variable {e e' : Entry}

def unkeyed (e : Entry) : Entry :=
  { e with keys := none }

theorem name_of_unkeyed (h : e.unkeyed = e'.unkeyed) : e.name = e'.name := by
  have names := congrArg Entry.name h
  exact names

/-- The two entries add up to the same, whichever of them comes first. Entries without a name are never
put together. -/
structure Agrees (e e' : Entry) : Prop where
  same : e.unkeyed = e'.unkeyed
  keys : e.keys = e'.keys ∨ e.name ≠ none ∧ (e.keys = none ∨ e'.keys = none)

instance (e e' : Entry) : Decidable (e.Agrees e') :=
  decidable_of_iff (_ ∧ _) ⟨fun h => ⟨h.1,h.2⟩,fun h => ⟨h.same,h.keys⟩⟩

theorem eq_of_keys (same : e.unkeyed = e'.unkeyed) (keys : e.keys = e'.keys) :
    e = e' := by
  cases e
  cases e'
  simp_all [unkeyed]

def Single (e : Entry) : Prop :=
  ∀ ks ∈ e.keys, ∃ k, ks = [k]

def mergeInto (e : Entry) (es : List Entry) : Outcome (List Entry) := do
  let found ← match e.name with
    | some name => FunctionPolicy.findName name es
    | none => pure none
  match found with
  | some k => return es.modify k fun x => (e.keys.getD []).foldl withKey x
  | none => return es ++ [e]

end Entry

namespace FunctionPolicy

variable {name : String} {es : List Entry}

theorem findName_modify {k : Nat} {g : Entry → Entry} (same : ∀ e, (g e).name = e.name) :
    findName name (es.modify k g) = findName name es := by
  induction es generalizing k with
  | nil => rw [modify_nil]
  | cons _ _ ih =>
    cases k with
    | zero => rw [modify_zero_cons,findName,findName,same]
    | succ => rw [modify_succ_cons,findName,findName,ih]

theorem findName_append {e : Entry} (absent : findName name es = .ok none)
    (named : e.name = some name) : findName name (es ++ [e]) = .ok (some es.length) := by
  induction es with
  | nil => simp [findName,named]
  | cons _ _ ih =>
    rw [findName] at absent
    rw [cons_append,findName]
    split at absent
    · cases absent
    next n known =>
      split at absent
      · cases absent
      next other =>
        obtain ⟨found,rest,absent⟩ := bind_ok.1 absent
        cases found with
        | some => cases absent
        | none =>
          simp only [other,ih rest]
          rfl

end FunctionPolicy

namespace Entry

open FunctionPolicy (findName findName_modify findName_append)

theorem name_foldl_withKey (ks : List String) (e : Entry) : (ks.foldl withKey e).name = e.name := by
  induction ks generalizing e with
  | nil => rfl
  | cons _ _ ih => exact ih _

variable {e e' : Entry}

theorem merge_comm_of_keys (single : e'.Single) (same : e.unkeyed = e'.unkeyed)
    (named : e.name ≠ none) (empty : e.keys = none) (es : List Entry) :
    (e.mergeInto es >>= e'.mergeInto) = (e'.mergeInto es >>= e.mergeInto) := by
  obtain ⟨name,named⟩ := Option.ne_none_iff_exists'.1 named
  have named' : e'.name = some name := (name_of_unkeyed same).symm.trans named
  have filled : (e'.keys.getD []).foldl withKey e = e' := by
    cases keys : e'.keys with
    | none => exact eq_of_keys same (empty.trans keys.symm)
    | some ks =>
      obtain ⟨k,rfl⟩ := single ks keys
      refine eq_of_keys (Eq.trans rfl same) ?_
      simp [withKey,empty,keys]
  cases found : findName name es with
  | error => simp [mergeInto,named,named',found,bind,Except.bind]
  | ok place =>
    cases place with
    | some k =>
      have again : findName name (es.modify k fun x => (e'.keys.getD []).foldl withKey x) = .ok (some k) :=
        (findName_modify (name_foldl_withKey _)).trans found
      have kept (l : List Entry) : (l.modify k fun x => x) = l := modify_id k l
      simp [mergeInto,named,named',found,again,empty,kept,bind,Except.bind,pure,Except.pure]
    | none =>
      have again : findName name (es ++ [e]) = .ok (some es.length) := findName_append found named
      have again' : findName name (es ++ [e']) = .ok (some es.length) := findName_append found named'
      simp [mergeInto,named,named',found,again,again',empty,modify_length,filled,bind,Except.bind,pure,Except.pure]

theorem Agrees.merge_comm (h : e.Agrees e') (single : e.Single) (single' : e'.Single) (es : List Entry) :
    (e.mergeInto es >>= e'.mergeInto) = (e'.mergeInto es >>= e.mergeInto) := by
  obtain keys | ⟨named,empty | empty⟩ := h.keys
  · rw [eq_of_keys h.same keys]
  · exact merge_comm_of_keys single' h.same named empty es
  · refine (merge_comm_of_keys single h.same.symm ?_ empty es).symm
    rwa [← name_of_unkeyed h.same]

/-- What an entry can become while others are put in. -/
structure Grows (e x : Entry) : Prop where
  same : e.unkeyed = x.unkeyed
  keys : ∀ ks ∈ e.keys, ∃ more, x.keys = some (ks ++ more)
  unnamed : e.name = none → x.keys = e.keys

theorem Grows.refl (e : Entry) : e.Grows e :=
  ⟨rfl,fun ks h => ⟨[],by rw [append_nil]; exact h⟩,fun _ => rfl⟩

theorem Grows.trans {x y : Entry} (h : e.Grows x) (h' : x.Grows y) : e.Grows y where
  same := h.same.trans h'.same
  keys ks hks := by
    obtain ⟨more,eq⟩ := h.keys ks hks
    obtain ⟨more',eq'⟩ := h'.keys _ eq
    exact ⟨more ++ more',by rw [eq',append_assoc]⟩
  unnamed none := (h'.unnamed ((name_of_unkeyed h.same).symm.trans none)).trans (h.unnamed none)

theorem grows_withKey {key : String} (named : e.name ≠ none) : e.Grows (e.withKey key) where
  same := rfl
  keys ks hks := by
    rw [Option.mem_def] at hks
    simp only [withKey,hks,Option.getD_some,Option.some.injEq]
    split
    · exact ⟨[key],rfl⟩
    · exact ⟨[],(append_nil ks).symm⟩
  unnamed none := absurd none named

theorem agrees_of_grows {x : Entry} (single : e.Single) (single' : e'.Single) (h : e.Grows x) (h' : e'.Grows x) :
    e.Agrees e' where
  same := h.same.trans h'.same.symm
  keys := by
    by_cases named : e.name = none
    · have named' : e'.name = none := (name_of_unkeyed (h'.same.trans h.same.symm)).trans named
      exact .inl ((h.unnamed named).symm.trans (h'.unnamed named'))
    · cases keys : e.keys with
      | none => exact .inr ⟨named,.inl rfl⟩
      | some ks =>
        cases keys' : e'.keys with
        | none => exact .inr ⟨named,.inr rfl⟩
        | some ks' =>
          obtain ⟨k,rfl⟩ := single ks keys
          obtain ⟨k',rfl⟩ := single' ks' keys'
          obtain ⟨more,eq⟩ := h.keys _ keys
          obtain ⟨more',eq'⟩ := h'.keys _ keys'
          rw [eq,Option.some.injEq,cons_append,cons_append,List.cons.injEq] at eq'
          exact .inl (by rw [eq'.1])

end Entry

namespace FunctionPolicy

variable {p : Program} {s : Section} {var : Node} {key : String}

def aloneEntry (p : Program) (s : Section) (var : Node) (key : String) : Outcome Entry := do
  let e ← newEntry p s var
  if ← isMappingState p var then return e.withKey (Text.eraseAnnotations key)
  return e

variable {e : Entry}

theorem aloneEntry_eq_ok (h : aloneEntry p s var key = .ok e) : ∃ new mapping,
    newEntry p s var = .ok new ∧ isMappingState p var = .ok mapping ∧ new.keys = none ∧
      e = (if mapping then new.withKey (Text.eraseAnnotations key) else new) ∧
      (∃ label, var.declaredName = .ok label ∧ e.name = label.identifierText?) := by
  obtain ⟨new,made,h⟩ := bind_ok.1 h
  obtain ⟨mapping,asked,h⟩ := bind_ok.1 h
  obtain ⟨isFor,keys⟩ := yields_newEntry p s var new made
  obtain ⟨label,declared,-⟩ := bind_ok.1 made
  have name : new.name = label.identifierText? := by
    refine Option.ext fun n => ?_
    rw [isFor n,nameText_eq_ok declared]
  refine ⟨new,mapping,made,asked,keys,?_,label,declared,?_⟩
  · cases mapping <;> cases h <;> rfl
  · cases mapping <;> cases h <;> exact name

theorem single_aloneEntry (h : aloneEntry p s var key = .ok e) : e.Single := by
  obtain ⟨new,mapping,-,-,keys,rfl,-⟩ := aloneEntry_eq_ok h
  cases mapping with
  | false => simp [Entry.Single,keys]
  | true => simp [Entry.Single,Entry.withKey,keys]

theorem entryFor?_eq {label : Node} (declared : var.declaredName = .ok label) (es : List Entry) :
    entryFor? var es = match label.identifierText? with
      | some name => findName name es
      | none => .ok none := by
  rw [entryFor?,declared]
  cases label <;> rfl

theorem added_eq_mergeInto (h : aloneEntry p s var key = .ok e) (es : List Entry) :
    added p s var key es = e.mergeInto es := by
  obtain ⟨new,mapping,made,asked,keys,rfl,label,declared,name⟩ := aloneEntry_eq_ok h
  have found := entryFor?_eq declared es
  rw [added,entered,found,Entry.mergeInto,name]
  have last (k : Nat) (es : List Entry) : keyed p var key k es =
      .ok (if mapping then es.modify k (·.withKey (Text.eraseAnnotations key)) else es) := by
    rw [keyed,asked]
    cases mapping <;> rfl
  cases label.identifierText? with
  | none =>
    simp [made,last,pure,Except.pure,bind,Except.bind]
    cases mapping <;> simp [Entry.modify_length]
  | some n =>
    simp only
    cases findName n es with
    | error => rfl
    | ok place =>
      cases place with
      | some k =>
        simp only [last,pure,Except.pure,bind,Except.bind,Except.ok.injEq]
        cases mapping with
        | false =>
          simp only [Bool.false_eq_true,if_false,keys,Option.getD_none,foldl_nil]
          exact (modify_id k es).symm
        | true =>
          have own : (new.withKey (Text.eraseAnnotations key)).keys = some [Text.eraseAnnotations key] := by
            simp [Entry.withKey,keys]
          simp [own]
      | none =>
        simp [made,last,pure,Except.pure,bind,Except.bind]
        cases mapping <;> simp [Entry.modify_length]

theorem grows_added {es es' : List Entry} (h : added p s var key (e :: es) = .ok es') :
    ∃ x more, es' = x :: more ∧ e.Grows x := by
  obtain ⟨k,es₁,mapping,entered,-,rfl⟩ := added_eq_ok h
  obtain ⟨x,there,-,same⟩ := entered_eq_ok entered
  -- The entry itself is found only if it has a name.
  have first : ∃ more, es₁ = e :: more ∧ (k = 0 → e.name ≠ none) := by
    obtain ⟨rfl,named⟩ | ⟨-,-,rfl,rfl⟩ := same
    · refine ⟨es,rfl,?_⟩
      rintro rfl
      cases there
      exact named
    · exact ⟨es ++ [x],rfl,by simp⟩
  obtain ⟨more,rfl,named⟩ := first
  split
  · cases k with
    | zero => exact ⟨_,more,rfl,Entry.grows_withKey (named rfl)⟩
    | succ => exact ⟨e,_,rfl,.refl e⟩
  · exact ⟨e,more,rfl,.refl e⟩

theorem added_nil {es : List Entry} (h : added p s var key [] = .ok es) : ∃ e, aloneEntry p s var key = .ok e ∧ es = [e] := by
  obtain ⟨k,es₁,mapping,entered,asked,rfl⟩ := added_eq_ok h
  obtain ⟨e,there,-,same⟩ := entered_eq_ok entered
  obtain ⟨rfl,-⟩ | ⟨made,-,rfl,rfl⟩ := same
  · simp at there
  · rw [aloneEntry,made]
    cases mapping <;> exact ⟨_,by rw [asked]; rfl,rfl⟩

end FunctionPolicy

namespace Program

variable (p : Program)

def notedEntry (a : Access) : Outcome Entry := do
  let (var,key) ← p.visitedMapping (p.viaOf a)
  FunctionPolicy.aloneEntry p .read var key

def NotesAgree (a b : Access) : Prop :=
  ∃ e e', p.notedEntry a = .ok e ∧ p.notedEntry b = .ok e' ∧ e.Agrees e'

instance (a b : Access) : Decidable (p.NotesAgree a b) :=
  match h : p.notedEntry a, h' : p.notedEntry b with
  | .ok e, .ok e' => decidable_of_iff (e.Agrees e') (by simp [NotesAgree,h,h'])
  | .error _, _ => isFalse (by simp [NotesAgree,h])
  | _, .error _ => isFalse (by simp [NotesAgree,h'])

def ReadsAgree (as : List Access) : Prop :=
  ∀ a ∈ as, ∀ b ∈ as, p.notes .read a = true → p.notes .read b = true → p.NotesAgree a b

instance (as : List Access) : Decidable (p.ReadsAgree as) :=
  inferInstanceAs (Decidable (∀ a ∈ as, ∀ b ∈ as, _ → _ → p.NotesAgree a b))

variable {p}

variable {a : Access} {e : Entry} {as : List Access} {es : List Entry}

theorem withAccess_eq_mergeInto (h : p.notedEntry a = .ok e) (es : List Entry) :
    p.withAccess .read es a = e.mergeInto es := by
  obtain ⟨⟨var,key⟩,visited,made⟩ := bind_ok.1 h
  rw [withAccess,visited]
  exact FunctionPolicy.added_eq_mergeInto made es

theorem single_notedEntry (h : p.notedEntry a = .ok e) : e.Single := by
  obtain ⟨⟨var,key⟩,-,made⟩ := bind_ok.1 h
  exact FunctionPolicy.single_aloneEntry made

theorem notedEntries_perm {bs : List Access} (agree : p.ReadsAgree as) (perm : as.Perm bs) : p.notedEntries .read as = p.notedEntries .read bs := by
  have comm : ∀ a ∈ as.filter (p.notes .read), ∀ b ∈ as.filter (p.notes .read), ∀ es,
      (p.withAccess .read es a >>= fun es => p.withAccess .read es b) = (p.withAccess .read es b >>= fun es => p.withAccess .read es a) := by
    intro a ha b hb es
    rw [mem_filter] at ha hb
    obtain ⟨e,e',made,made',same⟩ := agree a ha.1 b hb.1 ha.2 hb.2
    simp only [withAccess_eq_mergeInto made,withAccess_eq_mergeInto made']
    exact same.merge_comm (single_notedEntry made) (single_notedEntry made') es
  rw [notedEntries,notedEntries]
  have filtered := perm.filter (p.notes .read)
  generalize as.filter (p.notes .read) = as at comm filtered
  generalize bs.filter (p.notes .read) = bs at filtered
  generalize ([] : List Entry) = es
  induction filtered generalizing es with
  | nil => rfl
  | cons a _ ih =>
    rw [foldlM_cons,foldlM_cons]
    exact congrArg _ (funext fun es => ih (fun a ha b hb => comm a (by simp [ha]) b (by simp [hb])) es)
  | swap a b =>
    simp only [foldlM_cons,← bind_assoc]
    rw [comm a (by simp) b (by simp)]
  | trans perm _ ih ih' =>
    rw [ih comm]
    exact ih' (fun a ha b hb => comm a (perm.mem_iff.2 ha) b (perm.mem_iff.2 hb)) es

theorem grows_foldlM {es' : List Entry} (h : as.foldlM (p.withAccess .read) (e :: es) = .ok es') :
    ∃ x more, es' = x :: more ∧ e.Grows x := by
  induction as generalizing e es with
  | nil =>
    cases h
    exact ⟨e,es,rfl,.refl e⟩
  | cons _ _ ih =>
    obtain ⟨next,first,rest⟩ := bind_ok.1 h
    obtain ⟨⟨var,key⟩,-,first⟩ := bind_ok.1 first
    obtain ⟨x,more,rfl,grows⟩ := FunctionPolicy.grows_added first
    obtain ⟨y,more',eq,grows'⟩ := ih rest
    exact ⟨y,more',eq,grows.trans grows'⟩

theorem grows_notedEntries (noted : p.notes .read a)
    (h : p.notedEntries .read (a :: as) = .ok es) : ∃ e x more, p.notedEntry a = .ok e ∧ es = x :: more ∧ e.Grows x := by
  rw [notedEntries,filter_cons_of_pos noted,foldlM_cons] at h
  obtain ⟨next,first,rest⟩ := bind_ok.1 h
  obtain ⟨⟨var,key⟩,visited,first⟩ := bind_ok.1 first
  obtain ⟨e,made,rfl⟩ := FunctionPolicy.added_nil first
  obtain ⟨x,more,eq,grows⟩ := grows_foldlM rest
  refine ⟨e,x,more,?_,eq,grows⟩
  rw [notedEntry,visited]
  exact made

theorem notedEntries_perm_iff (h : p.notedEntries .read as = .ok es) :
    (∀ bs, as.Perm bs → p.notedEntries .read bs = .ok es) ↔ p.ReadsAgree as := by
  constructor
  · intro same a ha b hb noted noted'
    have front {a : Access} (ha : a ∈ as) (noted : p.notes .read a) :=
      grows_notedEntries noted (same _ (perm_cons_erase ha))
    obtain ⟨e,x,more,made,rfl,grows⟩ := front ha noted
    obtain ⟨e',x',more',made',eq,grows'⟩ := front hb noted'
    cases eq
    exact ⟨e,e',made,made',Entry.agrees_of_grows (single_notedEntry made) (single_notedEntry made') grows grows'⟩
  · intro agree bs perm
    rw [← notedEntries_perm agree perm,h]

end Program

namespace EffectsOnly

variable {p p' : Program} (h : EffectsOnly p p')
include h

theorem declaredEntries : p'.declaredEntries = p.declaredEntries := by
  rw [h]
  rfl

theorem notedEntries : p'.notedEntries = p.notedEntries := by
  have added : FunctionPolicy.added p' = FunctionPolicy.added p := by
    rw [h]
    rfl
  have withAccess : p'.withAccess = p.withAccess := by
    funext s es a
    rw [Program.withAccess,h.visitedMapping,h.viaOf,added,Program.withAccess]
  funext s as
  rw [Program.notedEntries,h.notes,withAccess,Program.notedEntries]

end EffectsOnly

/-- What functions read is enumerated in another order. -/
structure ReorderedReads (p q : Program) : Prop where
  only : q = { p with read := q.read }
  perm : ∀ k, (p.read.getD k []).Perm (q.read.getD k [])

namespace ReorderedReads

variable {p q : Program}

theorem refl (p : Program) : ReorderedReads p p :=
  ⟨rfl,fun _ => .refl _⟩

theorem effectsOnly (h : ReorderedReads p q) : EffectsOnly p q := by
  unfold EffectsOnly
  rw [h.only]

theorem modified (h : ReorderedReads p q) : q.modified = p.modified := by
  rw [h.only]

theorem insert {k : Nat} {as : List Access} (perm : (p.read.getD k []).Perm as) :
    ReorderedReads p { p with read := p.read.insert k as } := by
  refine ⟨rfl,fun j => ?_⟩
  rw [Std.TreeMap.getD_insert]
  split
  next same =>
    rw [← Nat.compare_eq_eq.1 same]
    exact perm
  next => exact .refl _

end ReorderedReads

namespace FunctionPolicy

variable {p q : Program} {n : Node} {f : FunctionPolicy}

theorem notedEntries_of_ofFunction (h : ofFunction p n = .ok f) :
    p.notedEntries .read (p.read.getD n.id []) = .ok ((f.entries? .read).getD []) := by
  obtain ⟨i,label,ps,modifiers,rs,body,kind,name,rfl,named,b,described,rfl⟩ := ofFunction_eq_ok_iff.1 h
  exact described.read.trans (congrArg _ (listed_assembled rfl b .read).symm)

theorem ofFunction_of_reordered (h : ofFunction p n = .ok f) (other : ReorderedReads p q)
    (same : p.notedEntries .read (q.read.getD n.id []) = p.notedEntries .read (p.read.getD n.id [])) : ofFunction q n = .ok f := by
  obtain ⟨i,label,ps,modifiers,rs,body,kind,name,rfl,named,b,described,rfl⟩ := ofFunction_eq_ok_iff.1 h
  have facts : q.facts = p.facts := by
    rw [other.only]
    rfl
  refine ofFunction_eq_ok_iff.2 ⟨i,label,ps,modifiers,rs,body,kind,name,rfl,named,b,?_,by rw [facts]⟩
  obtain ⟨inputs,read,mutate,outputs,types⟩ := described
  rw [← other.effectsOnly.declaredEntries] at inputs outputs
  rw [← same,← other.effectsOnly.notedEntries] at read
  rw [← other.effectsOnly.notedEntries,← other.modified] at mutate
  exact ⟨inputs,read,mutate,outputs,types⟩

def readList (p : Program) (n : Node) : Outcome (List Entry) := do
  return ((← ofFunction p n).entries? .read).getD []

theorem readList_eq_ok (h : ofFunction p n = .ok f) : readList p n = .ok ((f.entries? .read).getD []) := by
  rw [readList,h]
  rfl

theorem ofFunction_eq_of_agree (h : ofFunction p n = .ok f) (agree : p.ReadsAgree (p.read.getD n.id [])) (other : ReorderedReads p q) :
    ofFunction q n = .ok f :=
  ofFunction_of_reordered h other (Program.notedEntries_perm agree (other.perm _)).symm

theorem readList_reordered_iff (h : ofFunction p n = .ok f) :
    (∀ q r, ReorderedReads p q → ReorderedReads p r → readList q n = readList r n) ↔ p.ReadsAgree (p.read.getD n.id []) := by
  constructor
  · intro same
    refine (Program.notedEntries_perm_iff (notedEntries_of_ofFunction h)).1 fun as perm => ?_
    have other : ReorderedReads p { p with read := p.read.insert n.id as } := .insert perm
    have list := (same _ _ other (.refl p)).trans (readList_eq_ok h)
    obtain ⟨g,made,list⟩ := bind_ok.1 list
    rw [← Outcome.pure_eq_ok.1 list]
    have read := notedEntries_of_ofFunction made
    rwa [other.effectsOnly.notedEntries,Std.TreeMap.getD_insert_self] at read
  · intro agree q r other other'
    rw [readList_eq_ok (ofFunction_eq_of_agree h agree other),readList_eq_ok (ofFunction_eq_of_agree h agree other')]

end FunctionPolicy

namespace PrivacyPolicy

variable {p q : Program} {policy policy' : PrivacyPolicy} {ns : List Node}

theorem visit_congr (only : EffectsOnly p q) {n : Node}
    (same : n.isFunction → ofFunction q n = ofFunction p n) :
    visit q policy n = visit p policy n := by
  unfold visit
  rw [only.ofVariable]
  cases n with
  | function => rw [same rfl]
  | _ => rfl

theorem ofProgram_congr (only : EffectsOnly p q)
    (same : ∀ n ∈ p.tree.postorder, n.isFunction → ofFunction q n = ofFunction p n) :
    ofProgram q = ofProgram p := by
  have fold (ns : List Node) (policy : PrivacyPolicy)
      (same : ∀ n ∈ ns, n.isFunction → ofFunction q n = ofFunction p n) :
      ns.foldlM (visit q) policy = ns.foldlM (visit p) policy := by
    induction ns generalizing policy with
    | nil => rfl
    | cons _ _ ih =>
      rw [forall_mem_cons] at same
      rw [foldlM_cons,foldlM_cons,visit_congr only same.1]
      exact congrArg _ (funext fun policy => ih policy same.2)
  have tree : q.tree = p.tree := by
    rw [only]
    rfl
  have contracts : q.contracts = p.contracts := by
    rw [only]
    rfl
  rw [ofProgram,tree,contracts,fold _ _ same,ofProgram]

theorem eq_of_mapM {α β : Type} {g h : α → Outcome β} {as : List α} {bs : List β} (hg : as.mapM g = .ok bs)
    (hh : as.mapM h = .ok bs) : ∀ a ∈ as, g a = h a := by
  have left := Outcome.mapM_eq_ok.1 hg
  have right := Outcome.mapM_eq_ok.1 hh
  clear hg hh
  induction left with
  | nil => simp
  | cons here _ ih =>
    cases right with
    | cons there rest => exact forall_mem_cons.2 ⟨here.trans there.symm,ih rest⟩

theorem ofProgram_reordered_iff (h : ofProgram p = .ok policy) : (∀ q, ReorderedReads p q → ofProgram q = .ok policy) ↔
    ∀ n ∈ p.tree.preorder, n.isFunction → p.ReadsAgree (p.read.getD n.id []) := by
  constructor
  · intro same n hn function
    obtain ⟨f,-,made⟩ := exists_of_ofProgram h (mem_postorder_iff.2 hn) function
    refine (FunctionPolicy.readList_reordered_iff made).1 fun q r other other' => ?_
    have tree {q : Program} (other : ReorderedReads p q) : q.tree = p.tree := by
      rw [other.only]
      rfl
    have left := functions_of_ofProgram (same q other)
    have right := functions_of_ofProgram (same r other')
    rw [tree other] at left
    rw [tree other'] at right
    have here : n ∈ p.tree.postorder.filter (·.isFunction) := mem_filter.2 ⟨mem_postorder_iff.2 hn,function⟩
    rw [FunctionPolicy.readList,eq_of_mapM left right n here,FunctionPolicy.readList]
  · intro agree q other
    rw [← h]
    refine ofProgram_congr other.effectsOnly fun n hn function => ?_
    obtain ⟨f,-,made⟩ := exists_of_ofProgram h hn function
    rw [made]
    exact FunctionPolicy.ofFunction_eq_of_agree made (agree n (mem_postorder_iff.1 hn) function) other

end PrivacyPolicy

theorem Pipeline.policy_of_runs {settings : Settings} {text : String} {compiler : Option Solc.Answer} {policy : PrivacyPolicy}
    {p : Program} (run : Runs (process text compiler) { Globals.base with settings } policy p) :
    PrivacyPolicy.ofProgram p = .ok policy := by
  obtain ⟨s,q,drawn,printed⟩ := drawn_of_runs run
  rw [← drawn.policy_eq]
  have same := printed.effectsOnly.ofFunction (by rw [printed]) (by rw [printed])
  exact PrivacyPolicy.ofProgram_congr printed.effectsOnly fun n _ _ => congrFun same n

/-- The policy of a source depends on the order in which the values that a function reads are enumerated, unless
all the accesses that are noted for it list the same. -/
theorem read_order_irrelevant_iff {settings : Settings} {text : String} {compiler : Option Solc.Answer}
    {policy : PrivacyPolicy} {p : Program}
    (run : Runs (Pipeline.process text compiler) { Globals.base with settings } policy p) :
    (∀ f ∈ p.tree.preorder, f.isFunction = true →
      ((∀ q r, ReorderedReads p q → ReorderedReads p r → FunctionPolicy.readList q f = FunctionPolicy.readList r f) ↔
        p.ReadsAgree (p.read.getD f.id []))) ∧
    ((∀ q, ReorderedReads p q → PrivacyPolicy.ofProgram q = .ok policy) ↔
      ∀ f ∈ p.tree.preorder, f.isFunction = true → p.ReadsAgree (p.read.getD f.id [])) := by
  have drawn := Pipeline.policy_of_runs run
  refine ⟨fun f hf function => ?_,PrivacyPolicy.ofProgram_reordered_iff drawn⟩
  obtain ⟨fp,-,made⟩ := PrivacyPolicy.exists_of_ofProgram drawn (mem_postorder_iff.2 hf) function
  exact FunctionPolicy.readList_reordered_iff made

def addingContract : String :=
  "pragma cloak ^0.2.0;\ncontract C \x7b\n    mapping(uint => uint) m;\n    uint x;\n" ++
    "    function f(uint i, uint j) public \x7b\n        x = m[i] + m[j];\n    \x7d\n\x7d\n"

theorem addingContract_depends_on_order : ∃ policy p,
    Runs (Pipeline.process addingContract none) { Globals.base with settings := {} } policy p ∧
    (∃ f ∈ p.tree.preorder, f.isFunction = true ∧
      ∃ q r, ReorderedReads p q ∧ ReorderedReads p r ∧ FunctionPolicy.readList q f ≠ FunctionPolicy.readList r f) ∧
    ∃ q, ReorderedReads p q ∧ PrivacyPolicy.ofProgram q ≠ .ok policy := by
  have chars : addingContract = String.ofList _ := append_eq_ofList rfl rfl
  have evaluated : (Pipeline.process addingContract none).succeeds { Globals.base with settings := {} }
      (fun _ p => p.tree.preorder.any fun f => f.isFunction && !decide (p.ReadsAgree (p.read.getD f.id []))) = true := by
    rw [Pipeline.process,load_eq chars]
    decide +kernel
  obtain ⟨policy,p,run,evaluated⟩ := of_succeeds evaluated
  simp only [any_eq_true,Bool.and_eq_true,Bool.not_eq_true',decide_eq_false_iff_not] at evaluated
  obtain ⟨f,hf,function,differ⟩ := evaluated
  obtain ⟨lists,whole⟩ := read_order_irrelevant_iff run
  refine ⟨policy,p,run,⟨f,hf,function,?_⟩,?_⟩
  · have other := (lists f hf function).not.2 differ
    push Not at other
    obtain ⟨q,r,hq,hr,ne⟩ := other
    exact ⟨q,r,hq,hr,ne⟩
  · have other := whole.not.2 fun agree => differ (agree f hf function)
    push Not at other
    exact other

end Confidential
