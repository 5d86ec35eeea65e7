import Confidential.Proofs.Outcome

/-!
Getter and setter at work. Both keep a running index, which a loop moves on behind the entries of its
mapping.
-/

namespace Confidential.Accessors

open List

/-! ### Carrying out the steps -/

/-- What an entry of a state is for. A pass of a loop treats one key of a mapping. -/
inductive Item where
  | number
  | head
  | count
  | key (pass component : Nat)
  | part (pass : Nat) (part : Option Nat)
deriving DecidableEq

/-- Is the entry looked at when the states are given back? -/
def Item.isRestored : Item → Bool
  | .number | .head => false
  | .count | .key _ _ | .part _ _ => true

/-- A place in the array of states, and the item of a state that is put there or taken from there. -/
structure Slot where
  place : Nat
  state : Nat
  item : Item

/-- What is known of the variables while a generated function runs. -/
abbrev Values :=
  String → Nat

def Operand.value (values : Values) : Operand → Nat
  | .number k => k
  | .running name => values name

/-- The value of the expression that is written for an index. -/
def Index.value (values : Values) (name : String) (i : Index) : Nat :=
  ((i.terms name).map fun term => (term.map (·.value values)).prod).sum

def Values.set (values : Values) (setting : String × Index) : Values :=
  Function.update values setting.1 (setting.2.value values setting.1)

/-- A loop at work on a mapping: the number of the mapping, what is known when the loop begins, and the
count of the keys that it finds. -/
structure Visit (α : Type) where
  state : Nat
  loop : Loop α
  values : Values
  count : Nat

/-- What is known when the count of the keys was looked up. -/
def Visit.counted {α : Type} (v : Visit α) : Values :=
  Function.update v.values "keys_count" v.count

def Visit.inPass {α : Type} (v : Visit α) (pass : Nat) : Values :=
  Function.update v.counted "i" pass

/-- The loops at work one after the other, where `array` has the numbers that are looked up. -/
def visits {α : Type} (name : String) (array : Nat → Nat) : List (Nat × Loop α) → Values → List (Visit α)
  | [], _ => []
  | (k,l) :: rest, values =>
    let visit : Visit α := ⟨k,l,values,array (l.count.value values name)⟩
    visit :: visits name array rest (l.moves.foldl Values.set visit.counted)

def Accessor.visits {α : Type} (name : String) (array : Nat → Nat) (a : Accessor α) : List (Visit α) :=
  Accessors.visits name array a.loops (a.starts.foldl Values.set fun _ => 0)

/-- What a step of the getter stores. A part of a key is known by its place in the request. -/
def Store.item (pass : Nat) (s : Store) : Item :=
  match s.content with
  | .number _ => .number
  | .asked (.each offset _) => .key pass (offset - 2)
  | .asked (.ahead 1) => .count
  | .asked _ => .head
  | .state t => .part pass t.part

def Store.slot (state pass : Nat) (values : Values) (s : Store) : Slot :=
  ⟨s.entry.value values "os_idx",state,s.item pass⟩

def Load.slots (state pass : Nat) (values : Values) (l : Load) : List Slot :=
  (l.target.keys.zipIdx.map fun ((i,_),c) => ⟨i.value values "data_idx",state,.key pass c⟩) ++
    [⟨l.entry.value values "data_idx",state,.part pass l.target.part⟩]

def Visit.stored (v : Visit Store) : List Slot :=
  v.loop.header.map (·.slot v.state 0 v.values) ++
    (List.range v.count).flatMap fun pass => v.loop.body.map (·.slot v.state pass (v.inPass pass))

def Visit.loaded (v : Visit Load) : List Slot :=
  ⟨v.loop.count.value v.values "data_idx",v.state,.count⟩ ::
    (List.range v.count).flatMap fun pass => v.loop.body.flatMap (·.slots v.state pass (v.inPass pass))

/-- Where the getter puts what, in the order of its steps, when it is called with the request `read`. -/
def getterSlots (states : List Stored) (read : Nat → Nat) : List Slot :=
  ((getter states).plain.map fun (k,s) => s.slot k 0 fun _ => 0) ++
    ((getter states).visits "read_idx" read).flatMap (·.stored)

/-- Where the setter looks for what, in the order of its steps, when it is called with `data`. -/
def setterSlots (states : List Stored) (data : Nat → Nat) : List Slot :=
  ((setter states).plain.flatMap fun (k,l) => l.slots k 0 fun _ => 0) ++
    ((setter states).visits "data_idx" data).flatMap (·.loaded)

section Values

variable {values : Values} {name : String}

@[simp]
theorem value_fixed (k : Nat) : (Index.fixed k).value values name = k := by
  simp [Index.value,Index.terms,Operand.value]

@[simp]
theorem value_ahead (offset : Nat) : (Index.ahead offset).value values name = values name + offset := by
  by_cases zero : offset = 0 <;> simp [Index.value,Index.terms,Operand.value,zero]

@[simp]
theorem value_each (offset stride : Nat) :
    (Index.each offset stride).value values name = values name + offset + values "i" * stride := by
  by_cases one : stride = 1 <;> simp [Index.value,Index.terms,Operand.value,one,Nat.add_assoc]

@[simp]
theorem value_behind (offset stride : Nat) :
    (Index.behind offset stride).value values name = values name + offset + values "keys_count" * stride := by
  simp [Index.value,Index.terms,Operand.value,Nat.add_assoc]

end Values

/-! ### The states in the order of their entries -/

/-- The states that are mappings, or those that are not, with their numbers. -/
def numbered (keyed : Bool) (states : List Stored) : List (Nat × Stored) :=
  (states.zipIdx.filter (·.1.isMapping == keyed)).map Prod.swap

/-- How many entries a state has, where `n` counts the keys of a mapping. -/
def Stored.size (s : Stored) (n : Nat) : Nat :=
  if s.isMapping then 2 + n * s.stride else s.width

/-- A state with the places where its entries start, in the array of states and in the request. -/
structure Region where
  number : Nat
  state : Stored
  entry : Nat
  asked : Nat

/-- The regions of states lie one behind the other. -/
def regions (count : Nat → Nat) : Nat → Nat → List (Nat × Stored) → List Region
  | _, _, [] => []
  | entry, asked, (k,s) :: rest =>
    ⟨k,s,entry,asked⟩ :: regions count (entry + s.size (count k))
      (asked + if s.isMapping then 2 + count k * s.depth else 0) rest

def Region.passItems (r : Region) (pass : Nat) : List Slot :=
  ((List.range r.state.depth).map fun c => ⟨r.entry + 2 + pass * r.state.stride + c,r.number,.key pass c⟩) ++
    r.state.parts.zipIdx.map fun (part,j) =>
      ⟨r.entry + 2 + pass * r.state.stride + r.state.depth + j,r.number,.part pass part⟩

/-- What a state has in the array of states. -/
def Region.items (r : Region) (count : Nat) : List Slot :=
  if r.state.isMapping then
    ⟨r.entry,r.number,.head⟩ :: ⟨r.entry + 1,r.number,.count⟩ :: (List.range count).flatMap r.passItems
  else ⟨r.entry,r.number,.number⟩ :: r.state.parts.zipIdx.map fun (part,j) => ⟨r.entry + 1 + j,r.number,.part 0 part⟩

def ordered (states : List Stored) : List (Nat × Stored) :=
  numbered false states ++ numbered true states

/-- What has which place in the array of states, where `count` tells how many keys a mapping has. -/
def layout (states : List Stored) (count : Nat → Nat) : List Slot :=
  (regions count 0 0 (ordered states)).flatMap fun r => r.items (count r.number)

def sizes (count : Nat → Nat) (l : List (Nat × Stored)) : Nat :=
  (l.map fun (k,s) => s.size (count k)).sum

section States

variable {count : Nat → Nat} {states : List Stored} {s : Stored} {k entry asked : Nat} {l ys : List (Nat × Stored)} {x : Slot}
  {item : Item}

theorem regions_append (plain : ∀ p ∈ l, p.2.isMapping = false) :
    regions count entry asked (l ++ ys) =
      regions count entry asked l ++ regions count (entry + sizes count l) asked ys := by
  induction l generalizing entry with
  | nil => simp [regions,sizes]
  | cons p _ ih =>
    rw [forall_mem_cons] at plain
    simp [regions,sizes,plain.1,ih plain.2,Nat.add_assoc]

/-- The fold carries what was found before, and the place behind it. -/
theorem foldl_regions (l : List (Stored × Nat)) (start : Nat) (found : List (Nat × Nat × Stored)) :
    l.foldl (fun (found,start) (s,k) =>
      if s.isMapping then (found,start) else (found ++ [(k,start,s)],start + s.width)) (found,start) =
    (found ++ (regions count start 0 ((l.filter (·.1.isMapping == false)).map Prod.swap)).map
      fun r => (r.number,r.entry,r.state),start + sizes count ((l.filter (·.1.isMapping == false)).map Prod.swap)) := by
  induction l generalizing start found with
  | nil => simp [regions,sizes]
  | cons p _ ih =>
    by_cases h : p.1.isMapping
    · simp [h,ih]
    · simp [h,ih,regions,sizes,Stored.size,Nat.add_assoc]

theorem plainStates_eq (count : Nat → Nat) (states : List Stored) : plainStates states =
    ((regions count 0 0 (numbered false states)).map fun r => (r.number,r.entry,r.state),
      sizes count (numbered false states)) := by
  simpa [plainStates,numbered] using foldl_regions states.zipIdx 0 []

theorem mappings_numbered (states : List Stored) : (mappings states).map (fun m => (m.1,m.2.2)) = numbered true states := by
  simp [mappings,numbered,Function.comp_def,Prod.swap]

theorem isMapping_of_mem {keyed : Bool} (h : (k,s) ∈ numbered keyed states) : s.isMapping = keyed := by
  simp only [numbered,mem_map,mem_filter] at h
  obtain ⟨p,⟨-,kind⟩,eq⟩ := h
  obtain ⟨-,rfl⟩ := Prod.mk.inj eq
  exact beq_iff_eq.1 kind

theorem mappings_keyed : ∀ m ∈ mappings states, m.2.2.isMapping := fun m hm =>
  isMapping_of_mem (k := m.1) (mappings_numbered states ▸ mem_map_of_mem hm)

/-- Only the last of the mappings can be the last of the states. -/
theorem mappings_late (states : List Stored) : (mappings states).Pairwise fun m _ => m.2.1 = false := by
  have increasing : states.zipIdx.Pairwise fun p q => p.2 < q.2 := by
    rw [← pairwise_map (f := Prod.snd) (R := (· < ·)),zipIdx_map_snd]
    exact pairwise_lt_range'
  have below : states.zipIdx.Pairwise fun p _ => p.2 + 1 ≠ states.length := by
    refine increasing.imp_of_mem fun {p q} _ hq less => ?_
    have := (mem_zipIdx hq).2.1
    omega
  rw [mappings,pairwise_map]
  exact (below.filter _).imp fun h => by simpa using h

theorem ordered_perm (states : List Stored) : ordered states ~ states.zipIdx.map Prod.swap := by
  rw [ordered,numbered,numbered,← map_append]
  refine Perm.map _ ?_
  simpa using filter_append_perm (·.1.isMapping == false) states.zipIdx

theorem mem_ordered : (k,s) ∈ ordered states ↔ states[k]? = some s := by
  rw [(ordered_perm states).mem_iff,mem_map]
  constructor
  · rintro ⟨p,hp,eq⟩
    obtain ⟨rfl,rfl⟩ := Prod.mk.inj eq
    exact mem_zipIdx_iff_getElem?.1 hp
  · exact fun h => ⟨(s,k),mem_zipIdx_iff_getElem?.2 h,rfl⟩

theorem parts_ne_nil (s : Stored) : s.parts ≠ [] := by
  unfold Stored.parts
  split <;> simp

theorem flatMap_range'_stride (start stride n : Nat) :
    ((List.range n).flatMap fun pass => List.range' (start + pass * stride) stride) =
      List.range' start (n * stride) := by
  induction n with
  | zero => simp
  | succ _ ih =>
    rw [range_succ,flatMap_append,ih,flatMap_cons,flatMap_nil,append_nil,range'_append_1,Nat.succ_mul]

theorem place_parts (s : Stored) (start : Nat) :
    (s.parts.zipIdx.map fun p => start + p.2) = List.range' start s.parts.length := by
  rw [← Function.comp_def (fun j => start + j) Prod.snd,← map_map,zipIdx_map_snd]
  simp [map_add_range']

theorem place_items (r : Region) (n : Nat) : (r.items n).map (·.place) = List.range' r.entry (r.state.size n) := by
  unfold Region.items Stored.size
  split
  · have pass (pass : Nat) : (r.passItems pass).map (·.place) =
        List.range' (r.entry + 2 + pass * r.state.stride) r.state.stride := by
      have parts := place_parts r.state (r.entry + 2 + pass * r.state.stride + r.state.depth)
      simp only [Region.passItems,map_append,map_map,Function.comp_def,parts]
      rw [range_eq_range',map_add_range',Nat.add_zero,range'_append_1,Stored.stride]
    simp only [map_cons,map_flatMap,pass,flatMap_range'_stride]
    rw [Nat.add_comm 2,range'_succ,range'_succ]
  · simp [Function.comp_def,place_parts,Stored.width,Nat.add_comm 1,range'_succ]

theorem place_regions (count : Nat → Nat) (entry asked : Nat) (l : List (Nat × Stored)) :
    ((regions count entry asked l).flatMap fun r => r.items (count r.number)).map (·.place) =
      List.range' entry (sizes count l) := by
  induction l generalizing entry asked with
  | nil => simp [regions,sizes]
  | cons p _ ih =>
    rw [regions,flatMap_cons,map_append,place_items,ih,range'_append_1]
    simp [sizes]

/-! ### Every item has its slot -/

/-- Does a state with `count` keys have such an item? A plain state has no keys and one pass. -/
def Item.BelongsTo (s : Stored) (count : Nat) : Item → Prop
  | .number => s.isMapping = false
  | .head | .count => s.isMapping = true
  | .key pass c => s.isMapping = true ∧ pass < count ∧ c < s.depth
  | .part pass p => p ∈ s.parts ∧ if s.isMapping then pass < count else pass = 0

theorem parts_position {p : Option Nat} (h : p ∈ s.parts) :
    ∃ j, ∀ i, (p,i) ∈ s.parts.zipIdx ↔ i = j := by
  by_cases cipher : s.isCipher
  · simp only [Stored.parts,cipher,if_true,mem_cons,not_mem_nil,or_false] at h ⊢
    rcases h with rfl | rfl | rfl
    · exact ⟨0,by simp⟩
    · exact ⟨1,by simp⟩
    · exact ⟨2,by simp⟩
  · simp only [Stored.parts,cipher,Bool.false_eq_true,if_false,mem_singleton] at h ⊢
    subst h
    exact ⟨0,by simp⟩

theorem items_unique (r : Region) {n : Nat} (h : item.BelongsTo r.state n) : ∃! place, ⟨place,r.number,item⟩ ∈ r.items n := by
  unfold Region.items
  cases mapping : r.state.isMapping <;> cases item <;> simp only [Item.BelongsTo,mapping] at h
  case false.number => exact ⟨r.entry,by simp,by simp⟩
  case false.part =>
    obtain ⟨hp,rfl⟩ := h
    obtain ⟨j,hj⟩ := parts_position hp
    exact ⟨r.entry + 1 + j,by simp [hj],by simp [hj]⟩
  case true.head => exact ⟨r.entry,by simp,by simp [Region.passItems]⟩
  case true.count => exact ⟨r.entry + 1,by simp,by simp [Region.passItems]⟩
  case true.key pass c =>
    refine ⟨r.entry + 2 + pass * r.state.stride + c,?_,?_⟩ <;> simp [Region.passItems,h]
  case true.part pass _ =>
    obtain ⟨hp,hpass⟩ : _ ∧ pass < n := by simpa using h
    obtain ⟨j,hj⟩ := parts_position hp
    refine ⟨r.entry + 2 + pass * r.state.stride + r.state.depth + j,?_,?_⟩ <;> simp [Region.passItems,hpass,hj]
  all_goals simp at h

theorem state_of_mem_items {r : Region} {n : Nat} (h : x ∈ r.items n) : x.state = r.number := by
  unfold Region.items at h
  split at h
  · simp only [Region.passItems,mem_cons,mem_flatMap,mem_append,mem_map] at h
    rcases h with rfl | rfl | ⟨_,_,⟨_,_,rfl⟩ | ⟨_,_,rfl⟩⟩ <;> rfl
  · simp only [mem_cons,mem_map] at h
    obtain rfl | ⟨_,_,rfl⟩ := h <;> rfl

theorem number_of_mem_regions {r : Region} (h : r ∈ regions count entry asked l) : (r.number,r.state) ∈ l := by
  induction l generalizing entry asked with
  | nil => cases h
  | cons p _ ih =>
    obtain rfl | h := mem_cons.1 h
    · exact mem_cons_self
    · exact mem_cons_of_mem _ (ih h)

theorem regions_unique (distinct : (l.map Prod.fst).Nodup) (mem : (k,s) ∈ l) (h : item.BelongsTo s (count k)) :
    ∃! place, ⟨place,k,item⟩ ∈ (regions count entry asked l).flatMap fun r => r.items (count r.number) := by
  induction l generalizing entry asked with
  | nil => cases mem
  | cons p rest ih =>
    rw [map_cons,nodup_cons] at distinct
    simp only [regions,flatMap_cons,mem_append]
    obtain rfl | mem := mem_cons.1 mem
    · obtain ⟨place,here,only⟩ := items_unique ⟨k,s,entry,asked⟩ h
      refine ⟨place,.inl here,?_⟩
      rintro other (there | there)
      · exact only other there
      · obtain ⟨r,hr,there⟩ := mem_flatMap.1 there
        have same : k = r.number := state_of_mem_items there
        exact absurd (mem_map_of_mem (number_of_mem_regions hr)) (same ▸ distinct.1)
    · obtain ⟨place,here,only⟩ := @ih (entry + p.2.size (count p.1))
        (asked + if p.2.isMapping then 2 + count p.1 * p.2.depth else 0) distinct.2 mem
      refine ⟨place,.inr here,?_⟩
      rintro other (there | there)
      · have same : k = p.1 := state_of_mem_items there
        exact absurd (mem_map_of_mem mem) (same ▸ distinct.1)
      · exact only other there

theorem layout_unique (hs : states[k]? = some s) (h : item.BelongsTo s (count k)) :
    ∃! place, ⟨place,k,item⟩ ∈ layout states count := by
  refine regions_unique ?_ (mem_ordered.2 hs) h
  rw [((ordered_perm states).map Prod.fst).nodup_iff]
  simp [zipIdx_map_snd,nodup_range',Function.comp_def]

end States

/-! ### The loops -/

/-- What the loops of a function have in common: where the running indices are, which entry has the count
of the keys, and how the running indices are moved on. -/
structure Advances {α : Type} (name : String) (loop : Bool → Stored → Loop α) (At : Values → Nat → Nat → Prop)
    (place : Nat → Nat → Nat) : Prop where
  counted : ∀ {values entry asked}, At values entry asked → ∀ b s,
    (loop b s).count.value values name = place entry asked
  moved : ∀ {values entry asked n}, At values entry asked → ∀ s,
    At ((loop false s).moves.foldl Values.set (Function.update values "keys_count" n))
      (entry + (2 + n * s.stride)) (asked + (2 + n * s.depth))

/-- A visit of the mapping of a region. -/
structure Visit.Covers {α : Type} (loop : Bool → Stored → Loop α) (At : Values → Nat → Nat → Prop) (count : Nat → Nat)
    (v : Visit α) (r : Region) : Prop where
  state : v.state = r.number
  loop : ∃ b, v.loop = loop b r.state
  count : v.count = count r.number
  values : At v.values r.entry r.asked
  keyed : r.state.isMapping

section Visits

variable {α : Type} {name : String} {loop : Bool → Stored → Loop α} {At : Values → Nat → Nat → Prop}
  {place : Nat → Nat → Nat}

/-- The counts are right if the loops find them, or if they are where the loops look for them. -/
theorem visits_covers (array count : Nat → Nat) (advances : Advances name loop At place) (ms : List (Nat × Bool × Stored))
    (late : ms.Pairwise fun m _ => m.2.1 = false) (keyed : ∀ m ∈ ms, m.2.2.isMapping) (entry asked : Nat) (values : Values)
    (start : At values entry asked)
    (right : (∀ v ∈ visits name array (ms.map fun (k,b,s) => (k,loop b s)) values, v.count = count v.state) ∨
      ∀ r ∈ regions count entry asked (ms.map fun m => (m.1,m.2.2)), array (place r.entry r.asked) = count r.number) :
    Forall₂ (Visit.Covers loop At count) (visits name array (ms.map fun (k,b,s) => (k,loop b s)) values)
      (regions count entry asked (ms.map fun m => (m.1,m.2.2))) := by
  induction ms generalizing entry asked values with
  | nil => exact .nil
  | cons m rest ih =>
    obtain ⟨k,b,s⟩ := m
    obtain ⟨later,others⟩ := pairwise_cons.1 late
    obtain ⟨mapping,mappings⟩ := forall_mem_cons.1 keyed
    rw [map_cons,map_cons,visits,regions,advances.counted start] at right ⊢
    have first : array (place entry asked) = count k :=
      right.elim (fun found => found _ mem_cons_self) fun found => found _ mem_cons_self
    refine .cons ⟨rfl,⟨b,rfl⟩,first,start,mapping⟩ ?_
    cases rest with
    | nil => exact .nil
    | cons m' rest =>
      obtain rfl : b = false := later m' mem_cons_self
      rw [Stored.size,if_pos mapping,if_pos mapping] at right ⊢
      refine ih others mappings _ _ _ ?_ (right.imp (fun all v hv => all v (mem_cons_of_mem _ hv)) fun all r hr =>
        all r (mem_cons_of_mem _ hr))
      exact first ▸ advances.moved start s

variable {vs : List (Visit α)} {rs : List Region} {R : Visit α → Region → Prop} {f : Visit α → List Slot} {g : Region → List Slot}

theorem flatMap_covers (each : ∀ v r, R v r → f v = g r) (all : Forall₂ R vs rs) : vs.flatMap f = rs.flatMap g := by
  induction all with
  | nil => rfl
  | cons h _ ih => rw [flatMap_cons,flatMap_cons,each _ _ h,ih]

theorem mem_flatMap_covers {p : Slot → Prop} {x : Slot} (each : ∀ v r, R v r → (x ∈ f v ↔ x ∈ g r ∧ p x))
    (all : Forall₂ R vs rs) : x ∈ vs.flatMap f ↔ x ∈ rs.flatMap g ∧ p x := by
  induction all with
  | nil => simp
  | cons h _ ih => rw [flatMap_cons,flatMap_cons,mem_append,mem_append,each _ _ h,ih,or_and_right]

end Visits

/-- The running indices of the getter. -/
def GetterAt (values : Values) (entry asked : Nat) : Prop :=
  values "os_idx" = entry ∧ values "read_idx" = asked

def SetterAt (values : Values) (entry _ : Nat) : Prop :=
  values "data_idx" = entry

theorem getter_advances : Advances "read_idx" keyedStores GetterAt fun _ asked => asked + 1 where
  counted := by
    rintro values _ _ ⟨rfl,rfl⟩ b s
    exact value_ahead 1
  moved := by
    rintro values _ _ n ⟨rfl,rfl⟩ s
    simp [GetterAt,keyedStores,Values.set,Nat.add_assoc]

theorem setter_advances : Advances "data_idx" keyedLoads SetterAt fun entry _ => entry + 1 where
  counted := by
    rintro values _ _ rfl b s
    exact value_ahead 1
  moved := by
    rintro values _ _ n rfl s
    simp [SetterAt,keyedLoads,Values.set,Nat.add_assoc]

section Covers

variable {count read data : Nat → Nat} {states : List Stored} {r : Region} {x : Slot}

theorem getter_covers (right : (∀ v ∈ (getter states).visits "read_idx" read, v.count = count v.state) ∨
    ∀ r ∈ regions count (sizes count (numbered false states)) 0 (numbered true states), read (r.asked + 1) = count r.number) :
    Forall₂ (Visit.Covers keyedStores GetterAt count) ((getter states).visits "read_idx" read)
      (regions count (sizes count (numbered false states)) 0 (numbered true states)) := by
  have start : GetterAt ((getter states).starts.foldl Values.set fun _ => 0) (sizes count (numbered false states)) 0 := by
    simp [GetterAt,getter,Values.set,plainStates_eq count]
  have all := visits_covers read count getter_advances _ (mappings_late states) mappings_keyed _ _ _ start
  rw [mappings_numbered] at all
  exact all right

theorem setter_covers (kept : ∀ r ∈ regions count (sizes count (numbered false states)) 0 (numbered true states),
    data (r.entry + 1) = count r.number) :
    Forall₂ (Visit.Covers keyedLoads SetterAt count) ((setter states).visits "data_idx" data)
      (regions count (sizes count (numbered false states)) 0 (numbered true states)) := by
  have start : SetterAt ((setter states).starts.foldl Values.set fun _ => 0) (sizes count (numbered false states)) 0 := by
    simp [SetterAt,setter,Values.set,plainStates_eq count]
  have all := visits_covers data count setter_advances _ (mappings_late states) mappings_keyed _ _ _ start
  rw [mappings_numbered] at all
  exact all (.inr kept)

theorem stored_of_covers {v : Visit Store} (covers : v.Covers keyedStores GetterAt count r) :
    v.stored = r.items (count r.number) := by
  obtain ⟨state,⟨b,loop⟩,found,⟨os,-⟩,keyed⟩ := covers
  have body (pass : Nat) : (keyedStores b r.state).body.map (·.slot r.number pass (v.inPass pass)) = r.passItems pass := by
    simp only [keyedStores,Region.passItems,map_append,map_map]
    congr 1
    · apply ext_getElem
      · simp [Stored.depth]
      · intro c _ _
        simp [Store.slot,Store.item,Visit.inPass,Visit.counted,os]
        omega
    · apply map_congr_left
      intro p _
      simp [Store.slot,Store.item,Visit.inPass,Visit.counted,os]
      omega
  simp only [Visit.stored,state,loop,found,body]
  simp [keyedStores,Region.items,keyed,Store.slot,Store.item,os]

theorem slots_keyed {v : Visit Load} (data : v.values "data_idx" = r.entry) (pass j : Nat) (part : Option Nat)
    (type : Option String) : Load.slots r.number pass (v.inPass pass)
      ⟨{ name := r.state.name, keys := r.state.keys.zipIdx.map fun (type,c) => (Index.each (2 + c) r.state.stride,type), part },
        .each (2 + r.state.depth + j) r.state.stride,type⟩ =
      ((List.range r.state.depth).map fun c => ⟨r.entry + 2 + pass * r.state.stride + c,r.number,.key pass c⟩) ++
      [⟨r.entry + 2 + pass * r.state.stride + r.state.depth + j,r.number,.part pass part⟩] := by
  rw [Load.slots]
  congr 1
  · apply ext_getElem
    · simp [Stored.depth]
    · intro c _ _
      simp [Visit.inPass,Visit.counted,data]
      omega
  · simp [Visit.inPass,Visit.counted,data]
    omega

theorem mem_loaded_of_covers {v : Visit Load} (covers : v.Covers keyedLoads SetterAt count r) :
    x ∈ v.loaded ↔ x ∈ r.items (count r.number) ∧ x.item.isRestored := by
  obtain ⟨state,⟨b,loop⟩,found,data,keyed⟩ := covers
  change v.values "data_idx" = r.entry at data
  have some_part : ∃ p, p ∈ r.state.parts.zipIdx := by
    apply exists_mem_of_ne_nil
    simpa using parts_ne_nil r.state
  have counted : (keyedLoads b r.state).count.value v.values "data_idx" = r.entry + 1 := by
    rw [← data]
    exact value_ahead 1
  simp only [Visit.loaded,state,loop,found,counted]
  simp only [keyedLoads,flatMap_map,slots_keyed data,Region.items,if_pos keyed,Region.passItems,mem_cons,mem_flatMap,mem_append,mem_map,
    not_mem_nil,or_false,mem_range]
  constructor
  · rintro (rfl | ⟨pass,hpass,p,hp,⟨c,hc,rfl⟩ | rfl⟩)
    · exact ⟨.inr (.inl rfl),rfl⟩
    · exact ⟨.inr (.inr ⟨pass,hpass,.inl ⟨c,hc,rfl⟩⟩),rfl⟩
    · exact ⟨.inr (.inr ⟨pass,hpass,.inr ⟨p,hp,rfl⟩⟩),rfl⟩
  · rintro ⟨rfl | rfl | ⟨pass,hpass,⟨c,hc,rfl⟩ | ⟨p,hp,rfl⟩⟩,restored⟩
    · simp [Item.isRestored] at restored
    · exact .inl rfl
    · obtain ⟨p,hp⟩ := some_part
      exact .inr ⟨pass,hpass,p,hp,.inl ⟨c,hc,rfl⟩⟩
    · exact .inr ⟨pass,hpass,p,hp,.inr rfl⟩

/-! ### All states -/

theorem layout_eq (states : List Stored) (count : Nat → Nat) : layout states count =
    ((regions count 0 0 (numbered false states)).flatMap fun r => r.items (count r.number)) ++
      (regions count (sizes count (numbered false states)) 0 (numbered true states)).flatMap fun r => r.items (count r.number) := by
  rw [layout,ordered,regions_append fun p hp => isMapping_of_mem hp,flatMap_append,Nat.zero_add]

theorem getterSlots_eq (found : ∀ v ∈ (getter states).visits "read_idx" read, v.count = count v.state) :
    getterSlots states read = layout states count := by
  rw [getterSlots,layout_eq,flatMap_covers (fun _ _ => stored_of_covers) (getter_covers (.inl found))]
  congr 1
  rw [getter,plainStates_eq count,flatMap_map,map_flatMap]
  refine flatMap_congr fun r hr => ?_
  simp [plainStores,Region.items,isMapping_of_mem (number_of_mem_regions hr),Store.slot,Store.item]

theorem mem_setterSlots (kept : ∀ x ∈ layout states count, x.item = .count → data x.place = count x.state) :
    x ∈ setterSlots states data ↔ x ∈ layout states count ∧ x.item.isRestored := by
  have counts : ∀ r ∈ regions count (sizes count (numbered false states)) 0 (numbered true states),
      data (r.entry + 1) = count r.number := by
    intro r hr
    refine kept ⟨r.entry + 1,r.number,.count⟩ ?_ rfl
    rw [layout_eq]
    refine mem_append_right _ (mem_flatMap.2 ⟨r,hr,?_⟩)
    simp [Region.items,isMapping_of_mem (number_of_mem_regions hr)]
  have keyed := mem_flatMap_covers (x := x) (p := fun x => x.item.isRestored = true) (f := Visit.loaded)
    (g := fun r => r.items (count r.number)) (fun _ _ covers => mem_loaded_of_covers covers) (setter_covers counts)
  have plain : ((setter states).plain.flatMap fun (k,l) => l.slots k 0 fun _ => 0) =
      (regions count 0 0 (numbered false states)).flatMap fun r =>
        (r.items (count r.number)).filter (·.item.isRestored) := by
    rw [setter,plainStates_eq count,flatMap_map,flatMap_assoc]
    refine flatMap_congr fun r hr => ?_
    simp [plainLoads,Region.items,isMapping_of_mem (number_of_mem_regions hr),Load.slots,flatMap_map,filter_map,Item.isRestored,
      Function.comp_def,← map_eq_flatMap]
  rw [setterSlots,layout_eq,mem_append,mem_append,or_and_right,keyed,plain,← filter_flatMap,mem_filter]

end Covers

variable {states : List Stored} {contract : Node} {isPublic : Bool} {entries : List StateEntry}

/-! ### The states of a policy -/

/-- How many entries a state of a policy takes, where `n` counts the keys of a mapping. -/
def entryCount (isPublic : Bool) (e : StateEntry) (type : Node) (n : Nat) : Nat :=
  let isCipher := isPublic && !Ownership.isPublic e.ownership
  if type.mappingDepth = 0 then if isCipher then 4 else 2
  else 2 + n * (type.mappingDepth + if isCipher then 3 else 1)

def typeOf? (contract : Node) (e : StateEntry) : Option Node :=
  e.name.bind fun name => (stateTypes contract).lookup name

def layoutLength (contract : Node) (isPublic : Bool) (entries : List StateEntry) (count : Nat → Nat) : Nat :=
  (entries.zipIdx.map fun (e,k) =>
    ((typeOf? contract e).map fun type => entryCount isPublic e type (count k)).getD 0).sum

theorem length_split_keys (type : Node) : type.split.2.1.length = type.mappingDepth := by
  fun_induction Node.split type with
  | case1 => simp_all [Node.mappingDepth]
  | case2 _ h =>
    rw [Node.mappingDepth]
    · rfl
    · exact h

theorem stored_ok (h : stored contract isPublic entries = .ok states) :
    Forall₂ (fun e s => ∃ type, typeOf? contract e = some type ∧ s.depth = type.mappingDepth ∧
      s.isCipher = (isPublic && !Ownership.isPublic e.ownership)) entries states := by
  refine (Outcome.mapM_eq_ok.1 h).imp ?_
  intro e s hs
  cases hname : e.name with
  | none => simp [hname,bind,Except.bind] at hs
  | some name =>
    simp only [hname,bind_ok,Outcome.pure_eq_ok,exists_eq_left'] at hs
    cases htype : (stateTypes contract).lookup name with
    | none => simp [htype,bind,Except.bind] at hs
    | some type =>
      simp only [htype,bind_ok,Outcome.pure_eq_ok,exists_eq_left',Outcome.mapM_eq_ok] at hs
      obtain ⟨typeText,_,keys,hkeys,value,_,rfl⟩ := hs
      refine ⟨type,by simp [typeOf?,hname,htype],?_,rfl⟩
      rw [Stored.depth,← hkeys.length_eq,length_split_keys]

theorem isMapping_iff (s : Stored) : s.isMapping ↔ s.depth ≠ 0 := by
  simp [Stored.isMapping,Stored.depth]

theorem layoutLength_eq (h : stored contract isPublic entries = .ok states) (count : Nat → Nat) :
    layoutLength contract isPublic entries count = sizes count (ordered states) := by
  have from_number : ∀ k, ((entries.zipIdx k).map fun (e,k) =>
      ((typeOf? contract e).map fun type => entryCount isPublic e type (count k)).getD 0).sum =
      ((states.zipIdx k).map fun (s,k) => s.size (count k)).sum := by
    have all := stored_ok h
    clear h
    induction all with
    | nil => simp
    | @cons e s entries states hs _ ih =>
      intro k
      obtain ⟨type,htype,hdepth,hcipher⟩ := hs
      have own : entryCount isPublic e type (count k) = s.size (count k) := by
        simp only [Stored.size,isMapping_iff,entryCount,← hdepth,← hcipher,Stored.stride,Stored.width,Stored.parts]
        by_cases depth : s.depth = 0 <;> by_cases cipher : s.isCipher <;> simp [depth,cipher]
      simp [zipIdx_cons,htype,own,ih]
  rw [sizes,((ordered_perm states).map _).sum_eq,map_map]
  exact from_number 0

/-! ### The texts -/

/-- What is left of a text without its blanks. -/
def ink (s : String) : List Char :=
  s.toList.filter (!Token.isSpace ·)

def Loop.statements {α : Type} (array name : String) (step : α → String) (l : Loop α) : List String :=
  l.header.map step ++
    ["keys_count = abi.decode(" ++ array ++ "[" ++ l.countText name ++ "], (uint));",
      "for (uint i = 0; i < keys_count; i = i + 1) \x7b"] ++
    l.body.map step ++ ["\x7d"] ++ l.moves.map fun move => move.1 ++ " = " ++ settingText move ++ ";"

def Accessor.statements {α : Type} (array name : String) (step : α → String) (a : Accessor α) : List String :=
  a.plain.map (fun p => step p.2) ++
    (a.starts.map fun start => "uint " ++ start.1 ++ " = " ++ settingText start ++ ";") ++
    a.loops.flatMap fun l => l.2.statements array name step

def getterStatements (a : Accessor Store) : List String :=
  ["function get_states(bytes[] memory read, uint return_len) public returns (bytes[] memory) \x7b",
    "bytes[] memory oldStates = new bytes[](return_len);"] ++
    a.statements "read" "read_idx" (fun s => "oldStates[" ++ s.entryText ++ "] = " ++ s.valueText ++ ";") ++
    ["return oldStates;","\x7d"]

def setterStatements (isPublic : Bool) (a : Accessor Load) : List String :=
  ["function set_states(" ++ (if isPublic then guardedParameters else "bytes[] memory data") ++ ") public \x7b",
    if isPublic then guards else ""] ++
    a.statements "data" "data_idx" (fun l => l.target.text "data" "data_idx" ++ " = " ++ l.valueText ++ ";") ++
    ["\x7d"]

@[simp]
theorem ink_append (s t : String) : ink (s ++ t) = ink s ++ ink t := by
  simp [ink]

@[simp]
theorem ink_empty : ink "" = [] := rfl

@[simp]
theorem ink_break : ink "\n" = [] := rfl

@[simp]
theorem ink_line (margin : Nat) (text : String) : ink (line margin text) = ink text := by
  simp [line,ink,Token.isSpace]

@[simp]
theorem ink_join (texts : List String) : ink (String.join texts) = texts.flatMap ink := by
  induction texts with
  | nil => rfl
  | cons s _ ih => simp [String.join_cons,ih]

@[simp]
theorem ink_intercalate (texts : List String) : ink (String.intercalate "\n" texts) = texts.flatMap ink := by
  induction texts with
  | nil => rfl
  | cons s rest ih =>
    cases rest with
    | nil => simp
    | cons => simp [String.intercalate_cons_cons,ih]

section Steps

variable {α : Type} {array name : String} {step stepText : α → String} (each : ∀ x, ink (stepText x) = ink (step x))

include each

theorem ink_loop (l : Loop α) : ink (l.text array name stepText) = (l.statements array name step).flatMap ink := by
  simp [Loop.text,Loop.statements,flatMap_map,each,show ink ";\n" = ink ";" from rfl]

theorem ink_lines (margin : Nat) (a : Accessor α) :
    (a.lines array name margin stepText).flatMap ink = (a.statements array name step).flatMap ink := by
  simp [Accessor.lines,Accessor.statements,flatMap_map,each,ink_loop each,flatMap_assoc]

end Steps

theorem ink_getterText (a : Accessor Store) : ink (getterText a) = (getterStatements a).flatMap ink := by
  have each (s : Store) : ink s.text = ink ("oldStates[" ++ s.entryText ++ "] = " ++ s.valueText ++ ";") := by
    rw [Store.text,ink_append,ink_append _ ";",Store.ending]
    split
    · split <;> rfl
    · rfl
  rw [getterText,getterStatements,ink_intercalate,flatMap_append,flatMap_append,ink_lines each]
  simp

theorem ink_setterText (isPublic : Bool) (a : Accessor Load) :
    ink (setterText isPublic a) = (setterStatements isPublic a).flatMap ink := by
  have each (l : Load) : ink l.text = ink (l.target.text "data" "data_idx" ++ " = " ++ l.valueText ++ ";") := by
    rw [Load.text,ink_append,ink_append _ ";"]
    split <;> rfl
  rw [setterText,setterStatements,ink_intercalate,flatMap_append,flatMap_append,ink_lines each]
  simp

/-- A contract with a private number and a mapping in a mapping. -/
def ledger : Node :=
  .contract {} (.identifier {} "Ledger") [
    .stateVariable {} (.annotated {} Node.uintType true (.owner {} .me)) [] (.identifier {} "total")
      .omitted .omitted,
    .stateVariable {} (.annotated {} (.mapping {} Node.uintType .omitted
      (.annotated {} (.mapping {} Node.uintType (.identifier {} "a")
        (.annotated {} Node.uintType true (.name {} (.identifier {} "a")))) false (.owner {} .all)))
      false (.owner {} .all)) [] (.identifier {} "shares") .omitted .omitted] [] []

def ledgerEntries : List StateEntry :=
  [⟨some "shares","",default,.perKey "a" 1⟩,⟨some "total","",default,.single "me"⟩]

def ledgerStates : List Stored :=
  [⟨"shares","mapping(uint => mapping(uint!a => uint@a))",["uint","uint"],"uint",true⟩,
   ⟨"total","uint",[],"uint",true⟩]

end Confidential.Accessors
