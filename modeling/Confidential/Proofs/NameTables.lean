import Confidential.Proofs.Places

/-!
The tables of names.
-/

namespace Confidential

open List

namespace Names

theorem lookup_cons (e : String × Nat) (t : Names) (x : String) :
    List.lookup x (e :: t) = if x = e.1 then some e.2 else List.lookup x t := by
  by_cases h : x = e.1
  · simp [List.lookup,h]
  · rw [List.lookup,beq_eq_false_iff_ne.2 h,if_neg h]

variable {t : Names}

variable {tables : List Names}

theorem mem_of_lookup {x : String} {k : Nat} (h : t.lookup x = some k) : (x,k) ∈ t := by
  induction t with
  | nil => cases h
  | cons _ _ ih =>
    rw [lookup_cons] at h
    split at h
    next hx =>
      cases h
      rw [hx]
      exact mem_cons_self
    next => exact mem_cons_of_mem _ (ih h)

theorem lookup_map_replace (t : Names) (x y : String) (k : Nat) : (t.map fun e => if e.1 == x then (x,k) else e).lookup y =
      if y = x then if t.any (·.1 == x) then some k else none else t.lookup y := by
  induction t with
  | nil => simp
  | cons e _ ih =>
    rw [map_cons,lookup_cons,lookup_cons,ih,any_cons]
    by_cases he : e.1 = x
    · simp [he]
      grind
    · simp [he]
      grind

theorem lookup_put (t : Names) (x y : String) (k : Nat) :
    (t.put x k).lookup y = if y = x then some k else t.lookup y := by
  unfold put
  split
  next known => rw [lookup_map_replace,known,if_pos rfl]
  next unknown =>
    have absent : t.lookup x = none := by
      rw [lookup_eq_none_iff]
      intro e he
      simp only [any_eq_true,not_exists,not_and,beq_iff_eq] at unknown
      exact bne_iff_ne.2 (Ne.symm (unknown e he))
    rw [lookup_append,lookup_cons,lookup_nil]
    by_cases hy : y = x
    · rw [hy,absent,if_pos rfl,Option.none_or]
    · rw [if_neg hy,if_neg hy,Option.or_none]

theorem lookup_foldl_put (es : List (String × Nat)) (t : Names) (x : String) :
    (es.foldl (fun t e => t.put e.1 e.2) t).lookup x = (es.reverse.lookup x).or (t.lookup x) := by
  induction es generalizing t with
  | nil => simp
  | cons e _ ih =>
    rw [foldl_cons,ih,lookup_put,reverse_cons,lookup_append,lookup_cons,lookup_nil,Option.or_assoc]
    by_cases hx : x = e.1 <;> simp [hx]

theorem lookup_ofList (es : List (String × Nat)) (x : String) : (ofList es).lookup x = es.reverse.lookup x := by
  rw [ofList,lookup_foldl_put,lookup_nil,Option.or_none]

theorem lookup_update (t u : Names) (x : String) : (t.update u).lookup x = (u.reverse.lookup x).or (t.lookup x) :=
  lookup_foldl_put u t x

theorem keys_put (t : Names) (x : String) (k : Nat) :
    (t.put x k).map (·.1) = if t.any (·.1 == x) then t.map (·.1) else t.map (·.1) ++ [x] := by
  unfold put
  split
  · rw [map_map]
    refine map_congr_left fun e _ => ?_
    by_cases h : e.1 = x <;> simp [h]
  · rw [map_append,map_singleton]

theorem nodup_keys_ofList (es : List (String × Nat)) : ((ofList es).map (·.1)).Nodup := by
  unfold ofList
  have start : (([] : Names).map (·.1)).Nodup := nodup_nil
  generalize ([] : Names) = t at start
  induction es generalizing t with
  | nil => exact start
  | cons _ _ ih =>
    refine ih _ ?_
    rw [keys_put]
    split
    · exact start
    next new =>
      refine nodup_append.2 ⟨start,nodup_singleton _,fun x hx y hy same => new ?_⟩
      obtain ⟨f,hf,rfl⟩ := mem_map.1 hx
      rw [mem_singleton.1 hy] at same
      exact any_eq_true.2 ⟨f,hf,beq_iff_eq.2 same⟩

theorem lookup_reverse (h : (t.map (·.1)).Nodup) (x : String) : t.reverse.lookup x = t.lookup x := by
  induction t with
  | nil => rfl
  | cons _ t ih =>
    rw [map_cons,nodup_cons] at h
    rw [reverse_cons,lookup_append,ih h.2,lookup_cons,lookup_cons,lookup_nil]
    split
    next hx =>
      have absent : t.lookup x = none := by
        rw [lookup_eq_none_iff]
        intro f hf
        exact bne_iff_ne.2 fun same => h.1 (hx ▸ same ▸ mem_map_of_mem hf)
      rw [absent,Option.none_or]
    next => rw [Option.or_none]

theorem lookup_update_ofList (t : Names) (es : List (String × Nat)) (x : String) :
    (t.update (ofList es)).lookup x = (es.reverse.lookup x).or (t.lookup x) := by
  rw [lookup_update,lookup_reverse (nodup_keys_ofList es),lookup_ofList]

theorem lookup_foldlM_merge {es : List (String × Nat)} {t' : Names}
    (h : es.foldlM (fun t e =>
      match t.lookup e.1 with
      | some k =>
        if k = e.2 then .ok t
        else .error (.badValue (some s!"('Conflicting definitions for', {Text.quoted e.1})"))
      | none => .ok (t ++ [e])) t = (.ok t' : Outcome Names)) :
    (∀ x, t'.lookup x = (t ++ es).lookup x) ∧ ∀ e ∈ es, (t ++ es).lookup e.1 = some e.2 := by
  induction es generalizing t with
  | nil =>
    cases h
    simp
  | cons e es ih =>
    rw [foldlM_cons,bind_ok] at h
    obtain ⟨next,he,h⟩ := h
    split at he
    next k known =>
      split at he
      next same =>
        cases he
        obtain ⟨all,agree⟩ := ih h
        have skip (x : String) : (t ++ e :: es).lookup x = (t ++ es).lookup x := by
          rw [lookup_append,lookup_append,lookup_cons]
          split
          next hx => rw [hx,known,Option.some_or,Option.some_or]
          next => rfl
        refine ⟨fun x => by rw [skip,all],forall_mem_cons.2 ⟨?_,fun e' he' => ?_⟩⟩
        · rw [lookup_append,known,same,Option.some_or]
        · rw [skip,agree e' he']
      next => cases he
    next unknown =>
      cases he
      obtain ⟨all,agree⟩ := ih h
      rw [append_assoc,singleton_append] at all agree
      refine ⟨all,forall_mem_cons.2 ⟨?_,agree⟩⟩
      rw [lookup_append,unknown,lookup_cons,if_pos rfl,Option.none_or]

theorem sublist_merge (h : merge tables = .ok t) : t.Sublist tables.flatten := by
  suffices general : ∀ (es u t : Names), es.foldlM (fun t e => match t.lookup e.1 with
      | some k =>
        if k = e.2 then .ok t
        else .error (.badValue (some s!"('Conflicting definitions for', {Text.quoted e.1})"))
      | none => .ok (t ++ [e])) u = (.ok t : Outcome Names) → t.Sublist (u ++ es) from general _ [] t h
  intro es
  induction es with
  | nil =>
    rintro u t ⟨⟩
    simp
  | cons e es ih =>
    intro u t h
    obtain ⟨v,first,rest⟩ := bind_ok.1 h
    refine (ih v t rest).trans ?_
    dsimp only at first
    split at first
    next k found =>
      split at first
      · cases first
        exact (Sublist.refl u).append (sublist_cons_self e es)
      · cases first
    next =>
      cases first
      simp

theorem lookup_merge (h : merge tables = .ok t) : (∀ x, t.lookup x = tables.flatten.lookup x) ∧
      ∀ e ∈ tables.flatten, tables.flatten.lookup e.1 = some e.2 :=
  lookup_foldlM_merge h

end Names
namespace Node

def nameId (n : Node) : Nat :=
  ((n.ownName?).map (·.id)).getD 0

def isCalled (x : String) (n : Node) : Bool :=
  match n.ownName? with
  | some (.identifier _ t) => t == x
  | _ => false

def local? : Node → Option Node
  | .variableStatement _ decl _ => some decl
  | _ => none

/-- The declarations whose names a node hands on to the node around it. -/
def carried (n : Node) : List Node :=
  match n with
  | .variableStatement _ decl _ => [decl]
  | .declaration _ .variable _ _ _ _ => [n]
  | _ => []

/-- What a definition declares for the nodes inside of it: the state variables and definitions of a
contract, the definitions of a library, the parameters of a function or modifier. -/
def members : Node → List Node
  | .contract _ _ units _ _ => units.filter isStateVariable ++ units.filter (·.isNamespace)
  | .library _ _ units => units.filter (·.isNamespace)
  | .function _ _ parameters _ _ _ _ => parameters.getD []
  | .modifier _ _ parameters _ _ _ => parameters
  | _ => []

def declared (n : Node) : List Node :=
  match n with
  | .statements .. | .forLoop .. => n.children.filterMap local?
  | _ => n.members

end Node

open Node

def Lists (n : Node) (e : String × Nat) : Prop :=
  ∃ i, n.ownName? = some (.identifier i e.1) ∧ i.id = e.2

variable {ns : List Node} {t : Names} {n : Node}

variable {x : String} {es : List (String × Nat)}

theorem isCalled_iff : n.isCalled x ↔ ∃ i, n.ownName? = some (.identifier i x) := by
  unfold isCalled
  split
  next i t hn => simp [hn]
  next hn =>
    simp only [Bool.false_eq_true,false_iff,not_exists]
    exact fun i => hn i x

theorem Lists.isCalled {e : String × Nat} (h : Lists n e) (x : String) : n.isCalled x = (e.1 == x) := by
  obtain ⟨i,hn,-⟩ := h
  simp [Node.isCalled,hn]

theorem Lists.nameId {e : String × Nat} (h : Lists n e) : n.nameId = e.2 := by
  obtain ⟨i,hn,hi⟩ := h
  rw [Node.nameId,hn,Option.map_some,Option.getD_some]
  exact hi

theorem declaredNames_eq_ok (h : Pass.declaredNames ns = .ok t) :
    ∃ es, t = Names.ofList es ∧ Forall₂ Lists ns es := by
  obtain ⟨es,hes,rfl⟩ := Outcome.map_eq_ok.1 h
  refine ⟨es,rfl,(Outcome.mapM_eq_ok.1 hes).imp fun n e he => ?_⟩
  split at he
  next i t hn =>
    cases he
    exact ⟨i,hn,rfl⟩
  next => cases he

theorem lists_of_declaredNames (h : Pass.declaredNames ns = .ok t) : ∀ n ∈ ns, ∃ e, Lists n e := by
  obtain ⟨es,-,all⟩ := declaredNames_eq_ok h
  intro n hn
  obtain ⟨e,-,lists⟩ := forall₂_exists_of_mem all hn
  exact ⟨e,lists⟩

theorem lookup_of_lists (h : Forall₂ Lists ns es) (x : String) :
    es.lookup x = (ns.find? (·.isCalled x)).map nameId := by
  induction h with
  | nil => rfl
  | @cons n e ns es he _ ih =>
    rw [Names.lookup_cons,find?_cons,he.isCalled,ih]
    by_cases hx : x = e.1
    · rw [if_pos hx,beq_iff_eq.2 hx.symm,Option.map_some,he.nameId]
    · rw [if_neg hx,beq_eq_false_iff_ne.2 (Ne.symm hx)]

theorem lookup_declaredNames (h : Pass.declaredNames ns = .ok t) (x : String) :
    t.lookup x = (ns.reverse.find? (·.isCalled x)).map nameId := by
  obtain ⟨es,rfl,all⟩ := declaredNames_eq_ok h
  rw [Names.lookup_ofList]
  exact lookup_of_lists (forall₂_reverse_iff.2 all) x

/-- The table finds the last of the nodes that are declared by a name. -/
def Listing (t : Names) (ds : List Node) : Prop :=
  ∀ x, x ≠ "_" → t.lookup x = (ds.reverse.find? (·.isCalled x)).map nameId

def Distinct (ds : List Node) : Prop :=
  ∀ d ∈ ds, ∀ d' ∈ ds, ∀ x, d.isCalled x → d'.isCalled x → d.nameId = d'.nameId

theorem lookup_of_agree (h : Forall₂ Lists ns es)
    (agree : ∀ e ∈ es, es.lookup e.1 = some e.2) (hn : n ∈ ns) (called : n.isCalled x) :
    es.lookup x = some n.nameId := by
  obtain ⟨e,he,lists⟩ := forall₂_exists_of_mem h hn
  rw [lists.isCalled,beq_iff_eq] at called
  rw [← called,agree e he,lists.nameId]

theorem listing_of_agree (h : Forall₂ Lists ns es)
    (agree : ∀ e ∈ es, es.lookup e.1 = some e.2) (ht : ∀ x, t.lookup x = es.lookup x) :
    Listing t ns ∧ Distinct ns := by
  constructor
  · intro x _
    rw [ht]
    cases found : ns.reverse.find? (·.isCalled x) with
    | some n =>
      have called : n.isCalled x := find?_some found
      exact lookup_of_agree h agree (mem_reverse.1 (mem_of_find?_eq_some found)) called
    | none =>
      rw [find?_eq_none] at found
      rw [lookup_of_lists h,find?_eq_none.2 fun n hn => found n (mem_reverse.2 hn)]
  · intro d hd d' hd' x called called'
    have eq := lookup_of_agree h agree hd called
    rw [lookup_of_agree h agree hd' called'] at eq
    exact (Option.some.inj eq).symm

def Program.withNames (p : Program) (k : Nat) (t : Names) : Program :=
  { p with links := { p.links with names := p.links.names.insert k t } }

theorem Program.getElem?_withNames (p : Program) (k j : Nat) (t : Names) :
    (p.withNames k t).links.names[j]? = if k = j then some t else p.links.names[j]? := by
  simp [withNames,Std.TreeMap.getElem?_insert]

/-- Filling tables changes those with the given numbers, and makes new nodes known. -/
structure Fills (keys : Nat → Prop) (p p' : Program) : Prop where
  links : p'.links = { p.links with names := p'.links.names }
  names : ∀ k, ¬ keys k → p'.links.names[k]? = p.links.names[k]?
  next : p.next ≤ p'.next
  nodes : ∀ k, k < p.next → p'.nodes[k]? = p.nodes[k]?
  root : p'.root = p.root
  lines : p'.lines = p.lines
  globalNames : p'.globalNames = p.globalNames
  globalDefinitions : p'.globalDefinitions = p.globalDefinitions

namespace Fills

variable {keys : Nat → Prop} {p q r : Program}

theorem refl : Fills keys p p :=
  ⟨rfl,fun _ _ => rfl,le_rfl,fun _ _ => rfl,rfl,rfl,rfl,rfl⟩

theorem trans (h : Fills keys p q) (h' : Fills keys q r) : Fills keys p r where
  links := by
    rw [h'.links,h.links]
  names k hk := (h'.names k hk).trans (h.names k hk)
  next := h.next.trans h'.next
  nodes k hk := (h'.nodes k (hk.trans_le h.next)).trans (h.nodes k hk)
  root := h'.root.trans h.root
  lines := h'.lines.trans h.lines
  globalNames := h'.globalNames.trans h.globalNames
  globalDefinitions := h'.globalDefinitions.trans h.globalDefinitions

theorem mono {keys' : Nat → Prop} (h : Fills keys p q) (sub : ∀ k, keys k → keys' k) : Fills keys' p q :=
  { h with names := fun k hk => h.names k fun hk' => hk (sub k hk') }

theorem withNames {k : Nat} (t : Names) (hk : keys k) : Fills keys p (p.withNames k t) where
  links := rfl
  names j hj := by
    rw [Program.getElem?_withNames,if_neg]
    rintro rfl
    exact hj hk
  next := le_rfl
  nodes _ _ := rfl
  root := rfl
  lines := rfl
  globalNames := rfl
  globalDefinitions := rfl

end Fills

namespace Pass

variable {p p' : Program}

variable {t : Names} {c m n : Node} {u : Unit}

variable {cs : List Node} {q : Program}

theorem runs_setNames : Runs (setNames n t) p u p' ↔ p.withNames n.id t = p' :=
  runs_modify

/-- The parts of a statement whose names it takes over. -/
def collected (n : Node) : List Node :=
  n.children.filter fun c => !(c.isBlock || c.isForLoop)

theorem runs_namesOf (h : Runs (do
      if c matches .userType .. then throw .absent
      ask fun p => p.names c) p t p') : p.names c = .ok t ∧ p = p' := by
  dsimp only at h
  split at h
  · exact absurd h runs_throw_bind
  · exact runs_ask.1 h

theorem runs_collectNames (h : Runs (collectNames n) p t p') :
    ∃ tables, Forall₂ (fun c u => p.names c = .ok u) (collected n) tables ∧ Names.merge tables = .ok t ∧
      p' = (collected n).foldl (fun p c => p.withNames c.id []) p := by
  have cleared {cs : List Node} {p p' : Program} {u : Unit}
      (h : Runs (cs.forM fun c => setNames c []) p u p') : p' = cs.foldl (fun p c => p.withNames c.id []) p := by
    induction cs generalizing p with
    | nil => exact (runs_forM_nil.1 h).symm
    | cons _ _ ih =>
      obtain ⟨q,hc,h⟩ := runs_forM_cons.1 h
      rw [runs_setNames] at hc
      rw [foldl_cons,hc]
      exact ih h
  unfold collectNames at h
  simp only [runs_bind,runs_pure,runs_ofOutcome] at h
  obtain ⟨tables,q,asked,all,q',⟨merged,rfl⟩,u,r,run,rfl,rfl⟩ := h
  obtain ⟨names,rfl⟩ := runs_mapM_of_pure (fun _ _ _ _ => runs_namesOf) asked
  exact ⟨tables,names,merged,cleared run⟩

theorem getElem?_foldl_withNames (cs : List Node) (p : Program) (k : Nat) :
    (cs.foldl (fun p c => p.withNames c.id []) p).links.names[k]? =
      if k ∈ cs.map (·.id) then some [] else p.links.names[k]? := by
  induction cs generalizing p with
  | nil => simp
  | cons c cs ih =>
    rw [foldl_cons,ih,Program.getElem?_withNames,map_cons]
    by_cases h : k ∈ cs.map (·.id)
    · rw [if_pos h,if_pos (mem_cons_of_mem _ h)]
    · rw [if_neg h]
      by_cases hk : c.id = k
      · rw [if_pos hk,if_pos (hk ▸ mem_cons_self)]
      · rw [if_neg hk,if_neg fun mem => (mem_cons.1 mem).elim (fun eq => hk eq.symm) h]

theorem fills_foldl_withNames {keys : Nat → Prop} (h : ∀ c ∈ cs, keys c.id) (p : Program) :
    Fills keys p (cs.foldl (fun p c => p.withNames c.id []) p) := by
  induction cs generalizing p with
  | nil => exact .refl
  | cons _ _ ih =>
    rw [forall_mem_cons] at h
    exact (Fills.withNames [] h.1).trans (ih h.2 _)

theorem runs_checkOverloading {seen : Names} {fs : List Node}
    (h : Runs (checkOverloading seen fs) p u p') : p = p' := by
  induction fs generalizing seen p with
  | nil => exact (runs_pure.1 h).2
  | cons _ _ ih =>
    unfold checkOverloading at h
    obtain ⟨name,q,hq,h⟩ := runs_bind.1 h
    obtain ⟨-,rfl⟩ := runs_ofOutcome.1 hq
    split at h
    · obtain ⟨_,_,refused,_⟩ := runs_bind.1 h
      unfold refuse at refused
      obtain ⟨_,_,_,thrown⟩ := runs_bind.1 refused
      exact absurd thrown runs_throw
    · exact ih h

theorem runs_contractNames (h : Runs (contractNames n) p t p') :
    p = p' ∧ ∃ states defined, declaredNames n.stateVariables = .ok states ∧
      declaredNames (n.units.filter (·.isNamespace)) = .ok defined ∧ Names.merge [states,defined] = .ok t := by
  unfold contractNames at h
  simp only [runs_bind,runs_ofOutcome] at h
  obtain ⟨states,_,⟨hs,rfl⟩,_,_,checked,defined,_,⟨hd,rfl⟩,merged,rfl⟩ := h
  exact ⟨runs_checkOverloading checked,states,defined,hs,hd,merged⟩

theorem listing_contractNames (h : Runs (contractNames n) p t p') :
    Listing t (n.stateVariables ++ n.units.filter (·.isNamespace)) := by
  obtain ⟨-,states,defined,hs,hd,merged⟩ := runs_contractNames h
  obtain ⟨all,agree⟩ := Names.lookup_merge merged
  simp only [flatten_cons,flatten_nil,append_nil] at all agree
  intro x _
  have first := lookup_declaredNames hs x
  have second := lookup_declaredNames hd x
  rw [all,reverse_append,find?_append,lookup_append,first,second]
  cases state : n.stateVariables.reverse.find? (·.isCalled x) with
  | none => simp
  | some a =>
    cases other : (n.units.filter (·.isNamespace)).reverse.find? (·.isCalled x) with
    | none => simp
    | some =>
      -- A state variable and a definition of one name would be in conflict.
      rw [other,Option.map_some] at second
      have same := agree _ (mem_append_right _ (Names.mem_of_lookup second))
      rw [lookup_append,first,state,Option.map_some,Option.some_or] at same
      rw [Option.map_some,Option.some_or,Option.some_or,Option.map_some,same]

def Carries (p : Program) (n : Node) : Prop :=
  List.Forall₂ Lists n.carried ((p.links.names[n.id]?).getD [])

def Own (p : Program) (n : Node) : Prop :=
  match n.role with
  | .block | .loop => ∃ t, p.links.names[n.id]? = some t ∧ (Listing t n.declared ∧ Distinct n.declared) ∧
      ∃ es, List.Forall₂ Lists n.declared es ∧ t.Sublist es ∧ ∀ e ∈ es, e ∈ t
  | .routine | .contract | .library =>
    (∃ t, p.links.names[n.id]? = some t ∧ Listing t n.declared) ∧ ∀ d ∈ n.declared, ∃ e, Lists d e
  | .variable | .variableStatement | .variablesStatement | .simpleStatement | .statement | .expression
  | .arguments | .typeName | .mark | .state => Carries p n
  | _ => True

theorem Carries.lists (h : Carries p n) (names : p.names n = .ok t) : Forall₂ Lists n.carried t := by
  unfold Carries at h
  unfold Program.names at names
  cases found : p.links.names[n.id]? with
  | some =>
    rw [found] at h names
    cases names
    exact h
  | none =>
    rw [found] at h names
    dsimp only at names
    split at names
    · cases names
    · cases names
      exact h

theorem forall₂_flatten {tables : List Names} (carries : ∀ c ∈ cs, Carries p c)
    (names : Forall₂ (fun c u => p.names c = .ok u) cs tables) :
    Forall₂ Lists (cs.flatMap carried) tables.flatten := by
  induction names with
  | nil => exact .nil
  | cons hc _ ih =>
    rw [forall_mem_cons] at carries
    rw [flatMap_cons,flatten_cons]
    exact rel_append (carries.1.lists hc) (ih carries.2)

theorem carried_eq_nil (h : n.role ≠ .variable) (h' : n.role ≠ .variableStatement) : n.carried = [] := by
  cases n with
  | declaration _ kind => cases kind <;> first | rfl | exact absurd rfl h
  | variableStatement => exact absurd rfl h'
  | _ => rfl

theorem carried_eq_local (h : n.role ≠ .variable) : n.carried = n.local?.toList := by
  cases n with
  | declaration _ kind => cases kind <;> first | rfl | exact absurd rfl h
  | _ => rfl

theorem carries_of_collect (run : Runs (collectNames n) p t p')
    (carries : ∀ c ∈ collected n, Carries p c) (same : (collected n).flatMap carried = n.carried)
    (short : n.carried.length ≤ 1) : Forall₂ Lists n.carried t := by
  obtain ⟨tables,names,merged,-⟩ := runs_collectNames run
  have lists := forall₂_flatten carries names
  rw [same] at lists
  have eq : t = tables.flatten := by
    have length := lists.length_eq
    unfold Names.merge at merged
    match flat : tables.flatten, length with
    | [], _ =>
      rw [flat] at merged
      cases merged
      rfl
    | [e], _ =>
      rw [flat] at merged
      cases merged
      rfl
    | _ :: _ :: _, length => simp at length; omega
  rwa [eq]

theorem listing_of_collect (run : Runs (collectNames n) p t p')
    (carries : ∀ c ∈ collected n, Carries p c) (plain : ∀ c ∈ n.children, c.role ≠ .variable) :
    (Listing t (n.children.filterMap local?) ∧ Distinct (n.children.filterMap local?)) ∧
      ∃ es, Forall₂ Lists (n.children.filterMap local?) es ∧ t.Sublist es ∧ ∀ e ∈ es, e ∈ t := by
  obtain ⟨tables,names,merged,-⟩ := runs_collectNames run
  have lists := forall₂_flatten carries names
  have same : (collected n).flatMap carried = n.children.filterMap local? := by
    unfold collected
    generalize n.children = cs at plain
    induction cs with
    | nil => rfl
    | cons c _ ih =>
      rw [forall_mem_cons] at plain
      rw [filter_cons,filterMap_cons,← ih plain.2]
      cases closed : c.isBlock || c.isForLoop with
      | false =>
        rw [Bool.not_false,if_pos rfl,flatMap_cons,carried_eq_local plain.1]
        cases c.local? <;> rfl
      | true =>
        have nothing : c.local? = none := by
          cases c <;> first | rfl | cases closed
        rw [nothing,Bool.not_true,if_neg (by simp)]
  obtain ⟨all,agree⟩ := Names.lookup_merge merged
  rw [same] at lists
  refine ⟨listing_of_agree lists agree all,_,lists,Names.sublist_merge merged,fun e he => ?_⟩
  exact Names.mem_of_lookup ((all e.1).trans (agree e he))

/-- The roles of nodes that hand on names, or have none. -/
def carriers : List Role :=
  [.variable,.variableStatement,.variablesStatement,.simpleStatement,.statement,.expression,.arguments,.typeName,.mark,.state]

/-- The roles of nodes that take over the names of their parts. -/
def collectors : List Role :=
  [.block,.loop,.simpleStatement,.variableStatement,.other]

theorem Own.carries (h : Own p n) (hr : n.role ∈ carriers) : Carries p n := by
  unfold Own at h
  simp only [carriers,mem_cons,not_mem_nil,or_false] at hr
  rcases hr with hr | hr | hr | hr | hr | hr | hr | hr | hr | hr
  all_goals
    rw [hr] at h
    exact h

theorem role_ne_empty (h : c ∈ n.children) : c.role ≠ .empty := by
  intro hr
  have solid := (mem_filter.1 h).2
  cases c with
  | omitted => cases solid
  | declaration _ kind | statements _ kind => cases kind <;> cases hr
  | _ => cases hr

theorem role_of_collected (proper : n.isProper) (h : c ∈ collected n) :
    c ∈ n.children ∧ c.role ∈ n.role.below ∧ c.role ≠ .empty ∧ c.role ≠ .block ∧ c.role ≠ .loop := by
  obtain ⟨child,plain⟩ := mem_filter.1 h
  refine ⟨child,(isProper_iff.1 proper).1 c (part_of_child child),role_ne_empty child,?_,?_⟩
  · intro hr
    cases c with
    | declaration _ kind => cases kind <;> cases hr
    | statements _ kind =>
      cases kind with
      | block => cases plain
      | _ => cases hr
    | _ => cases hr
  · intro hr
    cases c with
    | declaration _ kind | statements _ kind => cases kind <;> cases hr
    | forLoop => cases plain
    | _ => cases hr

theorem carrier_of_collected (proper : n.isProper)
    (hr : n.role ∈ collectors) (h : c ∈ collected n) : c.role ∈ carriers := by
  obtain ⟨-,roles,empty,block,loop⟩ := role_of_collected proper h
  simp only [collectors,mem_cons,not_mem_nil,or_false] at hr
  rcases hr with hr | hr | hr | hr | hr
  rotate_right
  · rw [hr] at roles
    cases roles
  all_goals
    rw [hr] at roles
    simp only [Role.below,Role.steps,mem_cons,cons_append,nil_append,not_mem_nil,or_false] at roles
    simp only [carriers,mem_cons,not_mem_nil,or_false]
    grind

theorem carries_of_collected (proper : n.isProper) (below : ∀ c ∈ n.children, Own p c)
    (hr : n.role ∈ collectors) (h : c ∈ collected n) : Carries p c :=
  (below c (role_of_collected proper h).1).carries (carrier_of_collected proper hr h)

theorem own_fillOne (run : Runs (fillOne n) p u p') (proper : n.isProper)
    (below : ∀ c ∈ n.children, Own p c) (fresh : p.links.names[n.id]? = none) : Own p' n := by
  have filled {t : Names} {q : Program} (h : q.withNames n.id t = p') : p'.links.names[n.id]? = some t := by
    rw [← h,Program.getElem?_withNames,if_pos rfl]
  have quiet (h : p = p') : Forall₂ Lists [] ((p'.links.names[n.id]?).getD []) := by
    rw [← h,fresh]
    exact .nil
  have simple (hr : n.role = .simpleStatement) {u : Unit}
      (h : Runs (collectNames n >>= fun t => setNames n t) p u p') :
      Forall₂ Lists n.carried ((p'.links.names[n.id]?).getD []) := by
    obtain ⟨t,q,ht,h⟩ := runs_bind.1 h
    have nothing : n.carried = [] := carried_eq_nil (by simp [hr]) (by simp [hr])
    have carries (c : Node) := carries_of_collected (c := c) proper below (by simp [hr,collectors])
    rw [filled (runs_setNames.1 h)]
    refine carries_of_collect ht carries ?_ (by simp [nothing])
    rw [nothing,flatMap_eq_nil_iff]
    intro c hc
    have mem := (role_of_collected proper hc).2.1
    rw [hr] at mem
    refine carried_eq_nil ?_ ?_
    · intro hc
      exact absurd (hc ▸ mem) (by decide)
    · intro hc
      exact absurd (hc ▸ mem) (by decide)
  cases n with
  | library i a units | function i a parameters marks results body kind =>
    obtain ⟨t,q,ht,h⟩ := runs_bind.1 run
    obtain ⟨names,rfl⟩ := runs_ofOutcome.1 ht
    exact ⟨⟨t,filled (runs_setNames.1 h),fun x _ => lookup_declaredNames names x⟩,lists_of_declaredNames names⟩
  | contract =>
    obtain ⟨t,q,ht,h⟩ := runs_bind.1 run
    obtain ⟨-,states,defined,hs,hd,-⟩ := runs_contractNames ht
    refine ⟨⟨t,filled (runs_setNames.1 h),listing_contractNames ht⟩,?_⟩
    exact forall_mem_append.2 ⟨lists_of_declaredNames hs,lists_of_declaredNames hd⟩
  | modifier =>
    obtain ⟨t,q,ht,h⟩ := runs_bind.1 run
    obtain ⟨names,rfl⟩ := runs_ofOutcome.1 ht
    obtain ⟨placeholder,q,_,h⟩ := runs_bind.1 h
    refine ⟨⟨_,filled (runs_setNames.1 h),fun x hx => ?_⟩,lists_of_declaredNames names⟩
    rw [Names.lookup_put,if_neg hx]
    exact lookup_declaredNames names x
  | declaration _ kind =>
    cases kind with
    | plain | parameter => exact trivial
    | _ =>
      obtain ⟨t,q,ht,h⟩ := runs_bind.1 run
      obtain ⟨names,rfl⟩ := runs_ofOutcome.1 ht
      obtain ⟨es,rfl,all⟩ := declaredNames_eq_ok names
      change Forall₂ Lists _ ((p'.links.names[_]?).getD [])
      rw [filled (runs_setNames.1 h)]
      cases all with
      | cons he rest =>
        cases rest
        exact .cons he .nil
  | statements _ kind =>
    cases kind with
    | block =>
      obtain ⟨t,q,ht,h⟩ := runs_bind.1 run
      have carries (c : Node) := carries_of_collected (c := c) proper below mem_cons_self
      refine ⟨t,filled (runs_setNames.1 h),listing_of_collect ht carries fun c hc hr => ?_⟩
      have roles := (isProper_iff.1 proper).1 c (part_of_child hc)
      rw [hr] at roles
      exact absurd (show Role.variable ∈ Role.block.below from roles) (by decide)
    | _ => exact trivial
  | forLoop =>
    obtain ⟨t,q,ht,h⟩ := runs_bind.1 run
    have carries (c : Node) := carries_of_collected (c := c) proper below (by simp [role,collectors])
    refine ⟨t,filled (runs_setNames.1 h),listing_of_collect ht carries fun c hc hr => ?_⟩
    have roles := (isProper_iff.1 proper).1 c (part_of_child hc)
    rw [hr] at roles
    exact absurd (show Role.variable ∈ Role.loop.below from roles) (by decide)
  | variableStatement i decl value =>
    obtain ⟨t,q,ht,h⟩ := runs_bind.1 run
    have carries (c : Node) := carries_of_collected (c := c) proper below (by simp [role,collectors])
    change Forall₂ Lists _ ((p'.links.names[_]?).getD [])
    rw [filled (runs_setNames.1 h)]
    refine carries_of_collect ht carries ?_ (Nat.le_refl 1)
    obtain ⟨roles,places,-⟩ := isProper_iff.1 proper
    simp only [keepsPlaces,Bool.and_eq_true,decide_eq_true_eq,ne_eq] at places
    have nothing : value.carried = [] := by
      refine carried_eq_nil places.2 fun hr => ?_
      have mem := roles value (by simp [parts])
      rw [hr] at mem
      exact absurd (show Role.variableStatement ∈ Role.variableStatement.below from mem) (by decide)
    have decl_eq : decl.carried = [decl] ∧ (!decl.isOmitted) ∧ (!(decl.isBlock || decl.isForLoop)) := by
      cases decl with
      | declaration _ kind =>
        cases kind with
        | plain | parameter => cases places.1
        | _ => exact ⟨rfl,rfl,rfl⟩
      | statements _ kind => cases kind <;> cases places.1
      | _ => cases places.1
    change List.flatMap carried (List.filter _ (List.filter _ [decl,value])) = [decl]
    rw [filter_cons,if_pos decl_eq.2.1,filter_cons,if_pos decl_eq.2.2,flatMap_cons,decl_eq.1]
    have rest : ∀ c ∈ ([value].filter (!·.isOmitted)).filter fun c => !(c.isBlock || c.isForLoop), c.carried = [] := by
      intro c hc
      rw [mem_singleton.1 (mem_filter.1 (mem_filter.1 hc).1).1]
      exact nothing
    rw [flatMap_eq_nil_iff.2 rest,append_nil]
  | expressionStatement | require | assign => exact simple rfl run
  | variablesStatement =>
    obtain ⟨t,q,ht,h⟩ := runs_bind.1 run
    change Forall₂ Lists _ ((p'.links.names[_]?).getD [])
    rw [filled (runs_setNames.1 h)]
    exact carries_of_collect ht (by simp [collected,children,visited]) rfl (Nat.zero_le 1)
  | general => exact trivial
  | _ =>
    first
      | exact trivial
      | exact quiet (runs_pure.1 run).2

theorem fills_register {keys : Nat → Prop} (new : n.Unnumbered) (run : Runs (register n) p m p') :
    Fills keys p p' := by
  have h := registered_of_runs new run
  refine ⟨?_,fun k _ => ?_,h.le,fun k => h.getElem?_nodes_of_lt,?_,?_,?_,?_⟩
  all_goals rw [h.eq]

def Tabled (p : Program) (n : Node) : Prop :=
  Own p n ∨ n.role ∈ carriers ∧ p.links.names[n.id]? = some []

theorem Own.congr (h : Own p n) (same : p'.links.names[n.id]? = p.links.names[n.id]?) : Own p' n := by
  unfold Own Carries at *
  rw [same]
  exact h

theorem Tabled.congr (h : Tabled p n) (same : p'.links.names[n.id]? = p.links.names[n.id]?) : Tabled p' n := by
  unfold Tabled at *
  rw [same]
  exact h.imp_left (·.congr same)

/-- A step for a node changes its own table, and clears the tables that it takes names from. -/
structure FillsOne (n : Node) (p p' : Program) : Prop where
  fills : Fills (fun k => k = n.id ∨ k ∈ (collected n).map (·.id)) p p'
  cleared : ∀ k, k ≠ n.id → p'.links.names[k]? = p.links.names[k]? ∨ p'.links.names[k]? = some [] ∧ n.role ∈ collectors

theorem fillsOne_setNames : FillsOne n p (p.withNames n.id t) where
  fills := .withNames t (.inl rfl)
  cleared k hk := by
    rw [Program.getElem?_withNames,if_neg (Ne.symm hk)]
    exact .inl rfl

theorem FillsOne.trans {r : Program} (h : FillsOne n p q) (h' : FillsOne n q r) : FillsOne n p r where
  fills := h.fills.trans h'.fills
  cleared k hk := by
    obtain same | cleared := h'.cleared k hk
    · rw [same]
      exact h.cleared k hk
    · exact .inr cleared

theorem fillsOne_collectNames (run : Runs (collectNames n) p t p') (hr : collected n = [] ∨ n.role ∈ collectors) :
    FillsOne n p p' := by
  obtain ⟨-,-,-,rfl⟩ := runs_collectNames run
  refine ⟨fills_foldl_withNames (fun c hc => .inr (mem_map_of_mem hc)) p,fun k _ => ?_⟩
  rw [getElem?_foldl_withNames]
  split
  next mem =>
    obtain empty | hr := hr
    · rw [empty] at mem
      cases mem
    · exact .inr ⟨rfl,hr⟩
  next => exact .inl rfl

theorem fillsOne_fillOne (run : Runs (fillOne n) p u p') : FillsOne n p p' := by
  have plain {x : Outcome Names} {u : Unit} (h : Runs (ofOutcome x >>= fun t => setNames n t) p u p') :
      FillsOne n p p' := by
    obtain ⟨t,q,ht,h⟩ := runs_bind.1 h
    obtain ⟨-,rfl⟩ := runs_ofOutcome.1 ht
    exact runs_setNames.1 h ▸ fillsOne_setNames
  have collect (hr : collected n = [] ∨ n.role ∈ collectors) {u : Unit}
      (h : Runs (collectNames n >>= fun t => setNames n t) p u p') : FillsOne n p p' := by
    obtain ⟨t,q,ht,h⟩ := runs_bind.1 h
    exact (fillsOne_collectNames ht hr).trans (runs_setNames.1 h ▸ fillsOne_setNames)
  have same (h : p = p') : FillsOne n p p' := h ▸ ⟨.refl,fun _ _ => .inl rfl⟩
  cases n with
  | library => exact plain run
  | contract =>
    obtain ⟨t,q,ht,h⟩ := runs_bind.1 run
    obtain ⟨rfl,-⟩ := runs_contractNames ht
    exact runs_setNames.1 h ▸ fillsOne_setNames
  | function => exact plain run
  | modifier i a parameters virtual overrides body =>
    obtain ⟨t,q,ht,h⟩ := runs_bind.1 run
    obtain ⟨-,rfl⟩ := runs_ofOutcome.1 ht
    obtain ⟨placeholder,q,known,h⟩ := runs_bind.1 h
    have new : (Node.identifier {} "_").Unnumbered := (rawAs_leaf (r := .label)).1.unnumbered
    have links : q.links = p.links := by
      rw [(registered_of_runs new known).eq]
    have first : FillsOne (.modifier i a parameters virtual overrides body) p q :=
      ⟨fills_register new known,fun k _ => .inl (by rw [links])⟩
    exact first.trans (runs_setNames.1 h ▸ fillsOne_setNames)
  | struct | enum => exact plain run
  | declaration _ kind =>
    cases kind with
    | plain | parameter => exact same (runs_pure.1 run).2
    | _ => exact plain run
  | mapping => exact runs_setNames.1 run ▸ fillsOne_setNames
  | statements _ kind =>
    refine collect (.inr ?_) run
    cases kind <;> simp [role,ListKind.role,collectors]
  | forLoop i start condition update body | variableStatement i decl value | expressionStatement i a
  | require i a b w | assign i b l r op => exact collect (.inr (by simp [role,collectors])) run
  | variablesStatement => exact collect (.inl rfl) run
  | general _ c =>
    cases c with
    | simpleStatement => exact collect (.inl rfl) run
    | _ => exact same (runs_pure.1 run).2
  | _ => exact same (runs_pure.1 run).2

theorem FillsOne.tabled (h : FillsOne n p p') (proper : n.role ∈ collectors → n.isProper) (nodup : n.numbers.Nodup)
    (hm : m ∈ n.preorder) (pos : 0 < m.id) (ne : m.id ≠ n.id) (before : Tabled p m) : Tabled p' m := by
  obtain same | ⟨cleared,hr⟩ := h.cleared m.id ne
  · exact before.congr same
  by_cases mem : m.id ∈ (collected n).map (·.id)
  · obtain ⟨c,hc,same⟩ := mem_map.1 mem
    have known {c : Node} (h : c ∈ n.preorder) : c ∈ n.subtrees := n.preorder_sublist.subset h
    have child : c ∈ n.preorder := mem_preorder_of_child (self_mem_preorder n) (mem_filter.1 hc).1
    have eq : c = m := eq_of_id nodup (known child) (known hm) (isLeaflet_of_id (same ▸ pos)) (isLeaflet_of_id pos) same
    exact .inr ⟨eq ▸ carrier_of_collected (proper hr) hr hc,cleared⟩
  · exact before.congr (h.fills.names m.id (not_or.2 ⟨ne,mem⟩))

theorem fillBelow_eq (n : Node) :
    fillBelow n = (do
      if n.lacksParameters then throw .misused
      n.children.forM fillBelow
      fillOne n) := by
  have attached : n.children.attach.forM (fun c => fillBelow c.1) = n.children.forM fillBelow := by
    conv => rhs; rw [← attach_map_subtype_val n.children]
    exact (forM_map ..).symm
  rw [fillBelow]
  change (if n.lacksParameters then _ else n.children.attach.forM (fun c => fillBelow c.1) >>= fun _ => fillOne n) = _
  rw [attached]

theorem runs_fillBelow (run : Runs (fillBelow n) p u p') :
    n.lacksParameters = false ∧ ∃ q, Runs (n.children.forM fillBelow) p () q ∧ Runs (fillOne n) q () p' := by
  rw [fillBelow_eq] at run
  split at run
  · exact absurd run runs_throw_bind
  next walkable =>
    obtain ⟨_,q,first,last⟩ := runs_bind.1 run
    exact ⟨by simpa using walkable,q,first,last⟩

theorem id_mem_numbers (h : m ∈ n.subtrees) : m.id = 0 ∨ m.id ∈ n.numbers := by
  cases solid : m.isLeaflet with
  | true => exact .inl (id_eq_zero solid)
  | false => exact .inr (number_mem h solid)

theorem numbers_subset_child (h : c ∈ n.children) : c.numbers ⊆ n.numbers := by
  rw [numbers_eq n]
  exact fun k hk => mem_append_right _ (mem_flatMap.2 ⟨c,part_of_child h,hk⟩)

theorem fills_fillBelow (run : Runs (fillBelow n) p u p') : Fills (fun k => k = 0 ∨ k ∈ n.numbers) p p' := by
  induction n generalizing p p' u with
  | step n ih =>
    obtain ⟨-,q,first,last⟩ := runs_fillBelow run
    have children : Fills (fun k => k = 0 ∨ k ∈ n.numbers) p q := by
      refine runs_forM_induction (fun _ => .refl) (fun _ _ _ => .trans) (fun c hc p p' run => ?_) first
      refine (ih c (part_of_child hc) run).mono fun k => ?_
      exact Or.imp_right fun hk => numbers_subset_child hc hk
    refine children.trans ((fillsOne_fillOne last).fills.mono fun k hk => ?_)
    obtain rfl | hk := hk
    · exact id_mem_numbers self_mem
    · obtain ⟨c,hc,rfl⟩ := mem_map.1 hk
      have part := part_of_child (mem_filter.1 hc).1
      exact id_mem_numbers (mem_of_part self_mem part)

theorem own_of_isLeaflet (h : n.isLeaflet) : Own p n := by
  cases n <;> first | exact trivial | cases h

structure FillsTrees (ns : List Node) (p p' : Program) : Prop where
  fills : Fills (fun k => k = 0 ∨ k ∈ ns.flatMap numbers) p p'
  own : ∀ n ∈ ns, Own p' n
  tabled : ∀ n ∈ ns, ∀ m ∈ n.preorder, Tabled p' m

theorem number_mem_preorder (h : m ∈ n.preorder) (solid : m.isLeaflet = false) : m.id ∈ n.numbers :=
  number_mem (n.preorder_sublist.subset h) solid

theorem fillsTrees_cons (h : FillsTrees [n] p q) (hs : FillsTrees ns q p') (nodup : ((n :: ns).flatMap numbers).Nodup)
    (pos : ∀ k ∈ (n :: ns).flatMap numbers, 0 < k) : FillsTrees (n :: ns) p p' := by
  rw [flatMap_cons] at nodup pos
  -- The tables of the first tree are left alone.
  have kept {m : Node} (hm : m ∈ n.preorder) (solid : m.isLeaflet = false) :
      p'.links.names[m.id]? = q.links.names[m.id]? := by
    have mem := number_mem_preorder hm solid
    refine hs.fills.names m.id ?_
    rintro (zero | other)
    · exact absurd (pos m.id (mem_append_left _ mem)) (by omega)
    · exact (nodup_append.1 nodup).2.2 m.id mem m.id other rfl
  refine ⟨?_,forall_mem_cons.2 ⟨?_,hs.own⟩,forall_mem_cons.2 ⟨fun m hm => ?_,hs.tabled⟩⟩
  · refine (h.fills.mono ?_).trans (hs.fills.mono ?_)
    · exact fun k => Or.imp_right fun hk => mem_append_left _ (by simpa using hk)
    · exact fun k => Or.imp_right fun hk => mem_append_right _ hk
  · cases solid : n.isLeaflet with
    | true => exact own_of_isLeaflet solid
    | false =>
      exact (h.own n (mem_singleton.2 rfl)).congr (kept (self_mem_preorder n) solid)
  · cases solid : m.isLeaflet with
    | true => exact .inl (own_of_isLeaflet solid)
    | false => exact (h.tabled n (mem_singleton.2 rfl) m hm).congr (kept hm solid)

theorem fillsTrees_forM (each : ∀ n ∈ ns, ∀ {p p' : Program}, Runs (fillBelow n) p () p' →
      (∀ k ∈ n.numbers, 0 < k ∧ p.links.names[k]? = none) → FillsTrees [n] p p')
    (run : Runs (ns.forM fillBelow) p () p') (nodup : (ns.flatMap numbers).Nodup)
    (fresh : ∀ k ∈ ns.flatMap numbers, 0 < k ∧ p.links.names[k]? = none) : FillsTrees ns p p' := by
  induction ns generalizing p with
  | nil =>
    rw [← runs_forM_nil.1 run]
    exact ⟨.refl,by simp,by simp⟩
  | cons n ns ih =>
    rw [forall_mem_cons] at each
    obtain ⟨q,first,rest⟩ := runs_forM_cons.1 run
    have here : ∀ k ∈ n.numbers, k ∈ (n :: ns).flatMap numbers := fun k hk => mem_append_left _ hk
    have there : ∀ k ∈ ns.flatMap numbers, k ∈ (n :: ns).flatMap numbers := fun k hk => mem_append_right _ hk
    have head := each.1 first fun k hk => fresh k (here k hk)
    obtain ⟨-,apart⟩ : n.numbers.Nodup ∧ (ns.flatMap numbers).Nodup ∧ _ := nodup_append.1 nodup
    refine fillsTrees_cons head (ih each.2 rest apart.1 fun k hk => ?_) nodup fun k hk => (fresh k hk).1
    obtain ⟨pos,void⟩ := fresh k (there k hk)
    refine ⟨pos,?_⟩
    rw [head.fills.names k,void]
    rintro (zero | mem)
    · omega
    · exact apart.2 k (by simpa using mem) k hk rfl

theorem fillsTrees_fillBelow (run : Runs (fillBelow n) p u p') (proper : n.Proper)
    (nodup : n.numbers.Nodup) (fresh : ∀ k ∈ n.numbers, 0 < k ∧ p.links.names[k]? = none) : FillsTrees [n] p p' := by
  induction n generalizing p p' u with
  | step n ih =>
    obtain ⟨-,q,first,last⟩ := runs_fillBelow run
    obtain ⟨here,below⟩ := proper_iff.1 proper
    have whole := nodup
    have sublist : (n.children.flatMap numbers).Sublist (n.parts.flatMap numbers) :=
      flatMap_sublist n.children_sublist fun _ _ => .refl _
    rw [numbers_eq] at nodup fresh
    obtain ⟨-,inner,apart⟩ := nodup_append.1 nodup
    have children : FillsTrees n.children p q := by
      refine fillsTrees_forM (fun c hc p p' run fresh => ?_) first (sublist.nodup inner) fun k hk => ?_
      · have part := part_of_child hc
        exact ih c part run (below c part) ((nodup_flatMap.1 inner).1 c part) fresh
      · exact fresh k (mem_append_right _ (sublist.subset hk))
    have one := fillsOne_fillOne last
    have own : Own p' n := by
      cases solid : n.isLeaflet with
      | true => exact own_of_isLeaflet solid
      | false =>
        rw [solid] at apart fresh
        have head : n.id ∈ (if false = true then [] else [n.id]) := by simp
        refine own_fillOne last here children.own ?_
        obtain ⟨pos,void⟩ := fresh n.id (mem_append_left _ head)
        rw [children.fills.names n.id,void]
        rintro (zero | mem)
        · omega
        · exact apart n.id head n.id (sublist.subset mem) rfl
    refine ⟨?_,forall_mem_singleton.2 own,forall_mem_singleton.2 fun m hm => ?_⟩
    · simpa using fills_fillBelow run
    · rw [preorder_eq,mem_cons,mem_flatMap] at hm
      obtain rfl | ⟨c,hc,hm⟩ := hm
      · exact .inl own
      · cases solid : m.isLeaflet with
        | true => exact .inl (own_of_isLeaflet solid)
        | false =>
          have mem : m.id ∈ n.parts.flatMap numbers :=
            sublist.subset (mem_flatMap.2 ⟨c,hc,number_mem_preorder hm solid⟩)
          have inside : m ∈ n.preorder := by
            rw [preorder_eq]
            exact mem_cons_of_mem _ (mem_flatMap.2 ⟨c,hc,hm⟩)
          refine one.tabled (fun _ => here) whole inside (fresh _ (mem_append_right _ mem)).1 ?_ (children.tabled c hc m hm)
          intro same
          refine apart n.id ?_ m.id mem same.symm
          rw [isLeaflet_of_child hc]
          exact mem_singleton.2 rfl

end Pass

end Confidential
