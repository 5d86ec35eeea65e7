import Confidential.Proofs.StateLayout

/-!
Which entries of a request the getter uses.
-/

namespace Confidential.Accessors

open List

variable {α : Type}

/-- What is asked for about a mapping. -/
structure Request (α : Type) where
  head : α
  count : α
  keys : List (List α)

namespace Request

def entries (r : Request α) : List α :=
  r.head :: r.count :: r.keys.flatten

def Lists (number : α → Nat) (n depth : Nat) (r : Request α) : Prop :=
  number r.count = n ∧ r.keys.length = n ∧ ∀ key ∈ r.keys, key.length = depth

theorem length_entries {number : α → Nat} {n depth : Nat} {r : Request α} (h : r.Lists number n depth) :
    r.entries.length = 2 + n * depth := by
  obtain ⟨-,rfl,uniform⟩ := h
  have total : (r.keys.map List.length).sum = r.keys.length * depth := by
    rw [map_congr_left uniform,map_const',sum_replicate_nat]
  simp [entries,length_flatten,total]
  omega

theorem getElem?_flatten {depth : Nat} {keys : List (List α)} (uniform : ∀ key ∈ keys, key.length = depth)
    {pass c : Nat} {key : List α} (hkey : keys[pass]? = some key) (hc : c < depth) :
    keys.flatten[pass * depth + c]? = key[c]? := by
  induction keys generalizing pass with
  | nil => simp at hkey
  | cons first _ ih =>
    have hfirst : first.length = depth := uniform first (by simp)
    cases pass with
    | zero =>
      obtain rfl : first = key := by simpa using hkey
      rw [flatten_cons,Nat.zero_mul,Nat.zero_add,getElem?_append_left (by omega)]
    | succ pass =>
      have next : (pass + 1) * depth + c = depth + (pass * depth + c) := by
        rw [Nat.succ_mul]
        omega
      rw [flatten_cons,next,getElem?_append_right (by omega),hfirst,
        Nat.add_sub_cancel_left]
      exact ih (fun key hk => uniform key (by simp [hk])) (by simpa using hkey)

end Request

variable {s : Stored} {c : Nat}

/-- The entries of the request that the getter uses in a pass for a part of the key: once for the copy
in the array of states, and for every part of the value once to find it. -/
def Visit.fetched (v : Visit Store) (s : Stored) (pass c : Nat) : List Nat :=
  let values := v.inPass pass
  v.loop.body.filterMap fun st =>
    match st.content with
    | .number _ => none
    | .asked i =>
      if st.entry.value values "os_idx" = v.values "os_idx" + 2 + pass * s.stride + c then
        some (i.value values "read_idx")
      else none
    | .state t => (t.keys[c]?).map fun (i,_) => i.value values "read_idx"

theorem mem_zipIdx_keys {p : (Index × String) × Nat}
    (h : p ∈ (s.keys.zipIdx.map fun (type,c) => (Index.each (2 + c) 1,type)).zipIdx) :
    p.1.1 = .each (2 + p.2) 1 := by
  obtain ⟨h,hp⟩ := List.getElem?_eq_some_iff.1 (mem_zipIdx_iff_getElem?.1 h)
  simp [← hp]

theorem getElem?_keys (h : c < s.depth) : ∃ type, (s.keys.zipIdx.map fun (type,c) => (Index.each (2 + c) 1,type))[c]? =
      some (.each (2 + c) 1,type) := by
  have hc : c < s.keys.length := h
  exact ⟨s.keys[c],by simp [hc]⟩

section Covers

variable {v : Visit Store} {r : Region} {count : Nat → Nat} (covers : v.Covers keyedStores GetterAt count r)

include covers

theorem mem_fetched_iff {pass : Nat} (hc : c < r.state.depth) (place : Nat) :
    place ∈ v.fetched r.state pass c ↔ place = r.asked + 2 + c + pass := by
  obtain ⟨-,⟨b,loop⟩,-,⟨os,read⟩,-⟩ := covers
  simp only [Visit.fetched,loop,keyedStores,mem_filterMap,mem_append,mem_map]
  constructor
  · rintro ⟨store,⟨p,hp,rfl⟩ | ⟨p,hp,rfl⟩,used⟩
    · rw [mem_zipIdx_keys hp] at used
      simp [Visit.inPass,Visit.counted,os,read] at used
      omega
    · obtain ⟨type,hkey⟩ := getElem?_keys hc
      simp only [hkey,Option.map_some,Option.some.injEq] at used
      simp [Visit.inPass,Visit.counted,read] at used
      omega
  · rintro rfl
    obtain ⟨type,hkey⟩ := getElem?_keys hc
    refine ⟨_,.inl ⟨((.each (2 + c) 1,type),c),mem_zipIdx_iff_getElem?.2 hkey,rfl⟩,?_⟩
    have here : r.entry + (2 + c) + pass * r.state.stride = r.entry + 2 + pass * r.state.stride + c := by
      omega
    simp [Visit.inPass,Visit.counted,os,read,here]
    omega

end Covers

/-- Does the getter use the part of a key that stands where the layout of requests has it, when it
copies the key and when it finds the value? -/
def Visit.UsesListedKeys (v : Visit Store) (s : Stored) : Prop :=
  ∀ pass c, pass < v.count → c < s.depth → ∀ place, place ∈ v.fetched s pass c ↔
    place = v.values "read_idx" + 2 + pass * s.depth + c

theorem usesListedKeys_iff {v : Visit Store} {r : Region} {count : Nat → Nat}
    (covers : v.Covers keyedStores GetterAt count r) :
    v.UsesListedKeys r.state ↔ count r.number ≤ 1 ∨ r.state.depth = 1 := by
  have depth := (isMapping_iff r.state).1 covers.keyed
  rw [Visit.UsesListedKeys,covers.count,covers.values.2]
  constructor
  · intro used
    by_contra other
    -- The first part of the second key is not where the getter looks for it.
    have second := (used 1 0 (by omega) (Nat.pos_of_ne_zero depth) (r.asked + 2 + 0 + 1)).1
      ((mem_fetched_iff covers (Nat.pos_of_ne_zero depth) _).2 rfl)
    omega
  · intro few pass c hpass hc place
    rw [mem_fetched_iff covers hc]
    have same : r.asked + 2 + c + pass = r.asked + 2 + pass * r.state.depth + c := by
      rcases few with few | one
      · obtain rfl : pass = 0 := by omega
        omega
      · rw [one]
        omega
    rw [same]

theorem exists_entries_before {number : α → Nat} {count : Nat → Nat} {ms : List (Nat × Stored)} {requests : List (Request α)}
    (listed : Forall₂ (fun r m => Request.Lists number (count m.1) m.2.depth r) requests ms)
    (keyed : ∀ m ∈ ms, m.2.isMapping) (before : List α) (entry : Nat) :
    Forall₂ (fun r (region : Region) => r.Lists number (count region.number) region.state.depth ∧
      ∃ front back, before ++ requests.flatMap Request.entries = front ++ r.entries ++ back ∧
        front.length = region.asked) requests (regions count entry before.length ms) := by
  induction listed generalizing before entry with
  | nil => exact .nil
  | @cons r m others _ lists _ ih =>
    obtain ⟨mapping,more⟩ := forall_mem_cons.1 keyed
    refine .cons ⟨lists,before,others.flatMap Request.entries,by simp,rfl⟩ ?_
    have behind : (before ++ r.entries).length = before.length + if m.2.isMapping then 2 + count m.1 * m.2.depth else 0 := by
      rw [length_append,Request.length_entries lists,if_pos mapping]
    rw [← behind]
    simpa using ih more (before ++ r.entries) (entry + m.2.size (count m.1))

theorem forall₂_join {α β γ : Type} {P : α → γ → Prop} {Q : β → γ → Prop} {as : List α} {bs : List β} {cs : List γ}
    (left : Forall₂ P as cs) (right : Forall₂ Q bs cs) : Forall₂ (fun a b => ∃ c ∈ cs, P a c ∧ Q b c) as bs := by
  induction left generalizing bs with
  | nil =>
    obtain rfl := forall₂_nil_right_iff.1 right
    exact .nil
  | cons first _ ih =>
    obtain ⟨b,rest,other,more,rfl⟩ := forall₂_cons_right_iff.1 right
    refine .cons ⟨_,mem_cons_self,first,other⟩ ((ih more).imp ?_)
    rintro a b ⟨c,hc,both⟩
    exact ⟨c,mem_cons_of_mem _ hc,both⟩

theorem getElem?_request {number : α → Nat} {n depth : Nat} {r : Request α} (h : r.Lists number n depth)
    {all front back : List α} (placed : all = front ++ r.entries ++ back) :
    all[front.length]? = some r.head ∧ all[front.length + 1]? = some r.count ∧
    ∀ pass key c, r.keys[pass]? = some key → c < depth →
      all[front.length + 2 + pass * depth + c]? = key[c]? := by
  subst placed
  refine ⟨by simp [Request.entries],by simp [Request.entries],?_⟩
  intro pass key c hkey hc
  obtain ⟨-,-,uniform⟩ := h
  have listed := Request.getElem?_flatten uniform hkey hc
  have inside : pass * depth + c < r.keys.flatten.length := by
    have here : c < key.length := by rwa [uniform key (mem_of_getElem? hkey)]
    rw [getElem?_eq_getElem here] at listed
    exact (List.getElem?_eq_some_iff.1 listed).1
  rw [append_assoc,getElem?_append_right (by omega),Request.entries,
    show front.length + 2 + pass * depth + c - front.length = pass * depth + c + 1 + 1 by omega,
    cons_append,getElem?_cons_succ,cons_append,getElem?_cons_succ,
    getElem?_append_left inside,listed]

/-- A request is found in the list of all requests where the running index of its loop stands: first
its head, then the count that the loop takes over, then the parts of its keys. The getter uses the
parts of the listed keys exactly if there is at most one key or if every key has a single part. -/
theorem getter_uses_listed_keys_iff (number : α → Nat) (states : List Stored) (count : Nat → Nat)
    (requests : List (Request α))
    (listed : List.Forall₂ (fun r m => Request.Lists number (count m.1) m.2.2.depth r) requests (mappings states)) :
    let all := requests.flatMap Request.entries
    List.Forall₂ (fun r v => ∃ s, states[v.state]? = some s ∧
      let asked := v.values "read_idx"
      all[asked]? = some r.head ∧ (all[asked + 1]?).map number = some v.count ∧ r.keys.length = v.count ∧
      (∀ pass key c, r.keys[pass]? = some key → c < s.depth →
        all[asked + 2 + pass * s.depth + c]? = key[c]?) ∧
      (v.UsesListedKeys s ↔ v.count ≤ 1 ∨ s.depth = 1))
      requests ((getter states).visits "read_idx" fun place => ((all[place]?).map number).getD 0) := by
  intro all
  have keyed : ∀ m ∈ numbered true states, m.2.isMapping := fun m hm => isMapping_of_mem (k := m.1) hm
  rw [← forall₂_map_right_iff (f := fun m : Nat × Bool × Stored => (m.1,m.2.2))
    (R := fun r m => Request.Lists number (count m.1) m.2.depth r),mappings_numbered] at listed
  have placed := exists_entries_before listed keyed [] (sizes count (numbered false states))
  have counts : ∀ region ∈ regions count (sizes count (numbered false states)) 0 (numbered true states),
      ((all[region.asked + 1]?).map number).getD 0 = count region.number := by
    intro region hregion
    obtain ⟨r,-,lists,front,back,placed,start⟩ := forall₂_exists_of_mem placed.flip hregion
    have counted := (getElem?_request lists placed).2.1
    rw [start,nil_append] at counted
    rw [counted,Option.map_some,Option.getD_some,lists.1]
  refine (forall₂_join placed (getter_covers (.inr counts))).imp ?_
  rintro r v ⟨region,hregion,⟨lists,front,back,placed,start⟩,covers⟩
  obtain ⟨head,counted,keys⟩ := getElem?_request lists placed
  rw [start,nil_append] at head counted keys
  refine ⟨region.state,?_,?_⟩
  · rw [covers.state]
    exact mem_ordered.1 (mem_append_right _ (number_of_mem_regions hregion))
  · rw [covers.values.2,covers.count,usesListedKeys_iff covers]
    refine ⟨head,?_,lists.2.1,keys,Iff.rfl⟩
    rw [counted,Option.map_some,lists.1]

/-- Of two listed keys with two parts each, the second one is missed. -/
theorem ledger_misses_second_key :
    ∃ v, ((getter ledgerStates).visits "read_idx" fun place => ([0,2,10,11,20,21][place]?.map id).getD 0) = [v] ∧
      v.count = 2 ∧ ∃ s, ledgerStates[v.state]? = some s ∧ s.depth = 2 ∧ ¬ v.UsesListedKeys s := by
  have listed : List.Forall₂ (fun r m => Request.Lists id 2 m.2.2.depth r)
      [(⟨0,2,[[10,11],[20,21]]⟩ : Request Nat)] (mappings ledgerStates) :=
    .cons ⟨rfl,rfl,by decide⟩ .nil
  obtain ⟨v,vs,⟨s,here,-,-,counted,-,used⟩,rest,visited⟩ := forall₂_cons_left_iff.1
    (getter_uses_listed_keys_iff id ledgerStates (fun _ => 2) _ listed)
  obtain rfl := forall₂_nil_left_iff.1 rest
  obtain rfl : _ = v := (List.cons.inj visited).1
  obtain rfl : _ = s := Option.some.inj here
  exact ⟨_,visited,counted.symm,_,rfl,rfl,fun h => absurd (used.1 h) (by decide)⟩

end Confidential.Accessors
