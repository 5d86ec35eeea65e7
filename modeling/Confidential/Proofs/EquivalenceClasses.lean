import Mathlib
import Confidential.Compiler

/-!
Partitions are equivalence relations.
-/

namespace Confidential

open List

/-- Which of the present elements are equal. An element is present if it is equal to itself. -/
abbrev Equating (α : Type) : Type :=
  α → α → Prop

namespace Equating

variable {α : Type}

variable {r : Equating α} {a b x y : α}

def empty : Equating α :=
  fun _ _ => False

def insert (r : Equating α) (x : α) : Equating α :=
  fun a b => r a b ∨ a = x ∧ b = x

/-- Adds the pair, both ways around, and closes transitively. -/
def merge (r : Equating α) (x y : α) : Equating α :=
  Relation.TransGen fun a b => r a b ∨ a = x ∧ b = y ∨ a = y ∧ b = x

def remove (r : Equating α) (x : α) : Equating α :=
  fun a b => r a b ∧ a ≠ x ∧ b ≠ x

def moveTo (r : Equating α) (x y : α) : Equating α :=
  fun a b => r.remove x a b ∨ (a = x ∨ r a y) ∧ (b = x ∨ r b y)

def moveToSeparate (r : Equating α) (x : α) : Equating α :=
  (r.remove x).insert x

/-- Only elements of the list are left, if there is one. -/
def restrict (r : Equating α) (keep : Option (List α)) : Equating α :=
  fun a b => r a b ∧ ∀ xs ∈ keep, a ∈ xs ∧ b ∈ xs

/-- Different elements stay equal only if neither can change. -/
def separateAll (isImmutable : α → Bool) (r : Equating α) : Equating α :=
  fun a b => r a b ∧ (a = b ∨ isImmutable a = true ∧ isImmutable b = true)

def join (r t : Equating α) : Equating α :=
  fun a b => r a b ∧ t a b

theorem merge_iff (symm : ∀ {a b}, r a b → r b a) (trans : ∀ {a b c}, r a b → r b c → r a c) (hx : r x x) (hy : r y y) :
    r.merge x y a b ↔ r a b ∨ (r a x ∨ r a y) ∧ (r b x ∨ r b y) := by
  constructor
  · intro path
    induction path with
    | single h =>
      obtain h | ⟨rfl,rfl⟩ | ⟨rfl,rfl⟩ := h
      · exact .inl h
      · exact .inr ⟨.inl hx,.inr hy⟩
      · exact .inr ⟨.inr hy,.inl hx⟩
    | @tail b c _ h ih =>
      obtain h | ⟨rfl,rfl⟩ | ⟨rfl,rfl⟩ := h
      · obtain known | ⟨ha,hb⟩ := ih
        · exact .inl (trans known h)
        · exact .inr ⟨ha,hb.imp (trans (symm h)) (trans (symm h))⟩
      · exact .inr ⟨ih.elim .inl And.left,.inr hy⟩
      · exact .inr ⟨ih.elim .inr And.left,.inl hx⟩
  · have old {a b : α} (h : r a b) : r.merge x y a b := .single (.inl h)
    have pair : r.merge x y x y := .single (.inr (.inl ⟨rfl,rfl⟩))
    have back : r.merge x y y x := .single (.inr (.inr ⟨rfl,rfl⟩))
    rintro (h | ⟨ha | ha,hb | hb⟩)
    · exact old h
    · exact old (trans ha (symm hb))
    · exact ((old ha).trans pair).trans (old (symm hb))
    · exact ((old ha).trans back).trans (old (symm hb))
    · exact old (trans ha (symm hb))

theorem moveTo_iff [DecidableEq α] (symm : ∀ {a b}, r a b → r b a) (trans : ∀ {a b c}, r a b → r b c → r a c) (hy : r y y) :
    r.moveTo x y a b ↔ r (if a = x then y else a) (if b = x then y else b) := by
  by_cases ha : a = x <;> by_cases hb : b = x
  · simp [moveTo,ha,hb,hy]
  · simpa [moveTo,remove,ha,hb] using ⟨symm,symm⟩
  · simp [moveTo,remove,ha,hb]
  · simpa [moveTo,remove,ha,hb] using fun h h' => trans h (symm h')

end Equating

namespace Partition

variable {α : Type} {s : Partition α} {a b x y : α} {part xs ys : List α} {c d : Nat × List α} {classes : List (List α)}
  {isImmutable : α → Bool}

def Together (s : Partition α) : Equating α :=
  fun a b => ∃ c ∈ s.parts, a ∈ c.2 ∧ b ∈ c.2

/-- Classes are not empty, hold nothing twice and share no element; no index is used twice, and `next` is above
all of them. -/
structure IsProper (s : Partition α) : Prop where
  nonempty : ∀ c ∈ s.parts, c.2 ≠ []
  nodup : ∀ c ∈ s.parts, c.2.Nodup
  apart : s.parts.Pairwise fun c d => c.1 ≠ d.1 ∧ c.2.Disjoint d.2
  below : ∀ c ∈ s.parts, c.1 < s.next

theorem Together.symm : s.Together a b → s.Together b a :=
  fun ⟨c,hc,ha,hb⟩ => ⟨c,hc,hb,ha⟩

theorem Together.left : s.Together a b → s.Together a a :=
  fun ⟨c,hc,ha,_⟩ => ⟨c,hc,ha,ha⟩

theorem mem_elements : x ∈ s.elements ↔ s.Together x x := by
  simp [elements,Together]

namespace IsProper

variable (h : s.IsProper)
include h

theorem apart_of_ne (hc : c ∈ s.parts) (hd : d ∈ s.parts) (ne : c ≠ d) :
    c.1 ≠ d.1 ∧ c.2.Disjoint d.2 := by
  have : Std.Symm fun c d : Nat × List α => c.1 ≠ d.1 ∧ c.2.Disjoint d.2 :=
    ⟨fun _ _ apart => ⟨apart.1.symm,fun _ inD inC => apart.2 inC inD⟩⟩
  exact h.apart.forall hc hd ne

theorem eq_of_mem (hc : c ∈ s.parts) (hd : d ∈ s.parts) (inC : x ∈ c.2) (inD : x ∈ d.2) :
    c = d := by
  by_contra ne
  exact (h.apart_of_ne hc hd ne).2 inC inD

theorem eq_of_index (hc : c ∈ s.parts) (hd : d ∈ s.parts) (index : c.1 = d.1) : c = d := by
  by_contra ne
  exact (h.apart_of_ne hc hd ne).1 index

theorem together_iff (hc : c ∈ s.parts) (hx : x ∈ c.2) : s.Together a x ↔ a ∈ c.2 := by
  constructor
  · rintro ⟨d,hd,ha,inD⟩
    exact h.eq_of_mem hc hd hx inD ▸ ha
  · exact fun ha => ⟨c,hc,ha,hx⟩

theorem trans {c : α} (ab : s.Together a b) (bc : s.Together b c) : s.Together a c := by
  obtain ⟨d,hd,hb,hc⟩ := bc
  exact ⟨d,hd,(h.together_iff hd hb).1 ab,hc⟩

end IsProper

/-! ### New classes -/

theorem together_insertPart :
    (s.insertPart part).Together a b ↔ s.Together a b ∨ a ∈ part ∧ b ∈ part := by
  simp [Together,insertPart,or_and_right,exists_or]

theorem mem_insertPart :
    c ∈ (s.insertPart part).parts ↔ c ∈ s.parts ∨ c = (s.next,part) := by
  simp [insertPart]

theorem IsProper.insertPart (h : s.IsProper) (nonempty : part ≠ []) (nodup : part.Nodup)
    (new : ∀ x ∈ part, ¬ s.Together x x) : (s.insertPart part).IsProper where
  nonempty c hc := by
    obtain hc | rfl := mem_insertPart.1 hc
    · exact h.nonempty c hc
    · exact nonempty
  nodup c hc := by
    obtain hc | rfl := mem_insertPart.1 hc
    · exact h.nodup c hc
    · exact nodup
  apart := by
    refine pairwise_append.2 ⟨h.apart,pairwise_singleton _ _,fun c hc d hd => ?_⟩
    cases mem_singleton.1 hd
    exact ⟨Nat.ne_of_lt (h.below c hc),fun x hx inPart => new x inPart ⟨c,hc,hx,hx⟩⟩
  below c hc := by
    obtain hc | rfl := mem_insertPart.1 hc
    · exact Nat.lt_succ_of_lt (h.below c hc)
    · exact Nat.lt_succ_self _

theorem together_insert : (s.insert x).Together = s.Together.insert x := by
  funext a b
  simp [insert,Equating.insert,together_insertPart]

theorem IsProper.insert (h : s.IsProper) (new : ¬ s.Together x x) : (s.insert x).IsProper :=
  h.insertPart (by simp) (by simp) (by simpa using new)

theorem isProper_empty : ({} : Partition α).IsProper :=
  ⟨by simp,by simp,.nil,by simp⟩

structure Separate (classes : List (List α)) : Prop where
  nonempty : ∀ c ∈ classes, c ≠ []
  nodup : ∀ c ∈ classes, c.Nodup
  apart : classes.Pairwise List.Disjoint

theorem together_foldl_insertPart :
    (classes.foldl insertPart s).Together a b ↔ s.Together a b ∨ ∃ c ∈ classes, a ∈ c ∧ b ∈ c := by
  induction classes generalizing s with
  | nil => simp
  | cons _ _ ih => simp [ih,together_insertPart,or_assoc]

theorem Separate.isProper_foldl (h : Separate classes) (proper : s.IsProper)
    (new : ∀ c ∈ classes, ∀ x ∈ c, ¬ s.Together x x) : (classes.foldl Partition.insertPart s).IsProper := by
  induction classes generalizing s with
  | nil => exact proper
  | cons _ _ ih =>
    obtain ⟨nonempty,nodup,apart⟩ := h
    rw [forall_mem_cons] at nonempty nodup new
    rw [pairwise_cons] at apart
    refine ih ⟨nonempty.2,nodup.2,apart.2⟩ (proper.insertPart nonempty.1 nodup.1 new.1) fun d hd x hx => ?_
    rw [together_insertPart,and_self]
    rintro (known | inC)
    · exact new.2 d hd x hx known
    · exact apart.1 d hd inC hx

theorem together_ofClasses :
    (classes.foldl insertPart ({} : Partition α)).Together a b ↔ ∃ c ∈ classes, a ∈ c ∧ b ∈ c := by
  rw [together_foldl_insertPart]
  simp [Together]

theorem Separate.isProper (h : Separate classes) : (classes.foldl insertPart ({} : Partition α)).IsProper :=
  h.isProper_foldl isProper_empty (by simp [Together])

theorem part_eq (keys : s.parts.Pairwise fun c d => c.1 ≠ d.1) (hc : c ∈ s.parts) :
    s.part c.1 = c.2 := by
  obtain ⟨before,after,eq⟩ := append_of_mem hc
  rw [eq,pairwise_append] at keys
  have found : s.parts.lookup c.1 = some c.2 := by
    refine lookup_eq_some_iff.2 ⟨before,after,eq,fun d hd => ?_⟩
    simpa using (keys.2.2 d hd c mem_cons_self).symm
  rw [part,found]
  rfl

theorem IsProper.keys (h : s.IsProper) : s.parts.Pairwise fun c d => c.1 ≠ d.1 :=
  h.apart.imp And.left

/-! ### Fewer elements -/

def retain (keep : α → Bool) (s : Partition α) : Partition α :=
  { s with parts := (s.parts.map fun p => (p.1,p.2.filter keep)).filter fun p => !p.2.isEmpty }

theorem together_retain {keep : α → Bool} :
    (s.retain keep).Together a b ↔ s.Together a b ∧ keep a ∧ keep b := by
  simp only [Together,retain,mem_filter,mem_map]
  constructor
  · rintro ⟨_,⟨⟨c,hc,rfl⟩,-⟩,ha,hb⟩
    rw [mem_filter] at ha hb
    exact ⟨⟨c,hc,ha.1,hb.1⟩,ha.2,hb.2⟩
  · rintro ⟨⟨c,hc,ha,hb⟩,keepA,keepB⟩
    have mem : a ∈ c.2.filter keep := mem_filter.2 ⟨ha,keepA⟩
    refine ⟨_,⟨⟨c,hc,rfl⟩,?_⟩,mem,mem_filter.2 ⟨hb,keepB⟩⟩
    simpa using ⟨a,ha,keepA⟩

theorem IsProper.retain (h : s.IsProper) (keep : α → Bool) : (s.retain keep).IsProper := by
  have from' {c : Nat × List α} (hc : c ∈ (s.retain keep).parts) : ∃ d ∈ s.parts, (d.1,d.2.filter keep) = c :=
    mem_map.1 (mem_of_mem_filter hc)
  refine ⟨fun c hc => ?_,fun c hc => ?_,?_,fun c hc => ?_⟩
  · simpa using (mem_filter.1 hc).2
  · obtain ⟨d,hd,rfl⟩ := from' hc
    exact (h.nodup d hd).filter _
  · refine (pairwise_map.2 (h.apart.imp ?_)).filter _
    exact fun apart => ⟨apart.1,fun x inC inD => apart.2 (mem_of_mem_filter inC) (mem_of_mem_filter inD)⟩
  · obtain ⟨d,hd,rfl⟩ := from' hc
    exact h.below d hd

theorem IsProper.erasePart (h : s.IsProper) (k : Nat) : (s.erasePart k).IsProper :=
  ⟨fun c hc => h.nonempty c (mem_of_mem_filter hc),fun c hc => h.nodup c (mem_of_mem_filter hc),
    h.apart.filter _,fun c hc => h.below c (mem_of_mem_filter hc)⟩

theorem together_erasePart (h : s.IsProper) (hc : c ∈ s.parts) :
    (s.erasePart c.1).Together a b ↔ s.Together a b ∧ a ∉ c.2 := by
  simp only [Together,erasePart,mem_filter,decide_eq_true_eq]
  constructor
  · rintro ⟨d,⟨hd,ne⟩,ha,hb⟩
    exact ⟨⟨d,hd,ha,hb⟩,fun inC => ne (congrArg Prod.fst (h.eq_of_mem hd hc ha inC))⟩
  · rintro ⟨⟨d,hd,ha,hb⟩,notC⟩
    exact ⟨d,⟨hd,fun index => notC (h.eq_of_index hd hc index ▸ ha)⟩,ha,hb⟩

/-! ### Classes that fall apart -/

/-- The classes that a class falls apart into: what can change is alone. -/
def pieces (isImmutable : α → Bool) (xs : List α) : List (List α) :=
  (xs.filter fun x => !isImmutable x).map ([·]) ++ if (xs.filter isImmutable).isEmpty then [] else [xs.filter isImmutable]

theorem separateAll_eq :
    s.separateAll isImmutable = (s.parts.flatMap fun p => pieces isImmutable p.2).foldl insertPart {} := by
  unfold separateAll
  rw [foldl_flatMap]
  congr 1
  funext t p
  simp only [pieces,foldl_append,foldl_map]
  split <;> rfl

theorem mem_pieces {c : List α} (h : c ∈ pieces isImmutable xs) :
    (∃ x ∈ xs, isImmutable x = false ∧ c = [x]) ∨ c ≠ [] ∧ c = xs.filter isImmutable := by
  unfold pieces at h
  obtain h | h := mem_append.1 h
  · obtain ⟨x,hx,rfl⟩ := mem_map.1 h
    simp only [mem_filter,Bool.not_eq_true'] at hx
    exact .inl ⟨x,hx.1,hx.2,rfl⟩
  · split at h
    next => simp at h
    next full =>
      cases mem_singleton.1 h
      exact .inr ⟨by simpa using full,rfl⟩

theorem exists_mem_pieces : (∃ c ∈ pieces isImmutable xs, a ∈ c ∧ b ∈ c) ↔
      a ∈ xs ∧ b ∈ xs ∧ (a = b ∨ isImmutable a ∧ isImmutable b) := by
  constructor
  · rintro ⟨c,hc,ha,hb⟩
    obtain ⟨x,hx,-,rfl⟩ | ⟨-,rfl⟩ := mem_pieces hc
    · cases mem_singleton.1 ha
      cases mem_singleton.1 hb
      exact ⟨hx,hx,.inl rfl⟩
    · rw [mem_filter] at ha hb
      exact ⟨ha.1,hb.1,.inr ⟨ha.2,hb.2⟩⟩
  · have fixed {a b : α} (ha : a ∈ xs) (hb : b ∈ xs) (fa : isImmutable a) (fb : isImmutable b) :
        ∃ c ∈ pieces isImmutable xs, a ∈ c ∧ b ∈ c := by
      have mem : a ∈ xs.filter isImmutable := mem_filter.2 ⟨ha,fa⟩
      refine ⟨_,mem_append_right _ ?_,mem,mem_filter.2 ⟨hb,fb⟩⟩
      rw [if_neg (by simpa using ⟨a,ha,fa⟩)]
      exact mem_singleton_self _
    rintro ⟨ha,hb,rfl | ⟨fa,fb⟩⟩
    · cases fa : isImmutable a with
      | true => exact fixed ha ha fa fa
      | false =>
        refine ⟨[a],mem_append_left _ (mem_map.2 ⟨a,?_,rfl⟩),by simp,by simp⟩
        simp [ha,fa]
    · exact fixed ha hb fa fb

theorem separate_pieces (nodup : xs.Nodup) : Separate (pieces isImmutable xs) := by
  refine ⟨fun c hc => ?_,fun c hc => ?_,?_⟩
  · obtain ⟨x,-,-,rfl⟩ | ⟨full,-⟩ := mem_pieces hc
    · simp
    · exact full
  · obtain ⟨x,-,-,rfl⟩ | ⟨-,rfl⟩ := mem_pieces hc
    · exact nodup_singleton x
    · exact nodup.filter _
  · refine pairwise_append.2 ⟨?_,?_,fun c hc d hd => ?_⟩
    · refine pairwise_map.2 ((nodup.filter _).imp fun ne => ?_)
      simpa using Ne.symm ne
    · split <;> simp
    · obtain ⟨x,hx,rfl⟩ := mem_map.1 hc
      split at hd
      · simp at hd
      · cases mem_singleton.1 hd
        simp_all

theorem together_separateAll :
    (s.separateAll isImmutable).Together = s.Together.separateAll isImmutable := by
  funext a b
  rw [separateAll_eq,together_ofClasses]
  simp only [mem_flatMap,Equating.separateAll,Together,eq_iff_iff]
  constructor
  · rintro ⟨c,⟨p,hp,hc⟩,both⟩
    obtain ⟨ha,hb,kept⟩ := exists_mem_pieces.1 ⟨c,hc,both⟩
    exact ⟨⟨p,hp,ha,hb⟩,kept⟩
  · rintro ⟨⟨p,hp,ha,hb⟩,kept⟩
    obtain ⟨c,hc,both⟩ := exists_mem_pieces.2 ⟨ha,hb,kept⟩
    exact ⟨c,⟨p,hp,hc⟩,both⟩

theorem IsProper.separateAll (h : s.IsProper) (isImmutable : α → Bool) :
    (s.separateAll isImmutable).IsProper := by
  rw [separateAll_eq]
  have each {p : Nat × List α} (hp : p ∈ s.parts) : Separate (pieces isImmutable p.2) := separate_pieces (h.nodup p hp)
  refine Separate.isProper ⟨fun c hc => ?_,fun c hc => ?_,pairwise_flatMap.2 ⟨fun p hp => (each hp).apart,?_⟩⟩
  · obtain ⟨p,hp,hc⟩ := mem_flatMap.1 hc
    exact (each hp).nonempty c hc
  · obtain ⟨p,hp,hc⟩ := mem_flatMap.1 hc
    exact (each hp).nodup c hc
  · refine h.apart.imp fun apart c hc d hd x inC inD => ?_
    exact apart.2 (exists_mem_pieces.1 ⟨c,hc,inC,inC⟩).1 (exists_mem_pieces.1 ⟨d,hd,inD,inD⟩).1

variable [DecidableEq α]

variable {t : Partition α}

/-! ### Looking up -/

theorem IsProper.index?_of_mem (h : s.IsProper) (hc : c ∈ s.parts)
    (hx : x ∈ c.2) : s.index? x = some c.1 := by
  have found : (s.parts.find? fun p => p.2.contains x).isSome = true :=
    find?_isSome.2 ⟨c,hc,contains_iff_mem.2 hx⟩
  obtain ⟨d,hd⟩ := Option.isSome_iff_exists.1 found
  have inD : x ∈ d.2 := by simpa using find?_some hd
  rw [index?,hd,h.eq_of_mem hc (mem_of_find?_eq_some hd) hx inD]
  rfl

theorem has_iff : s.has x ↔ s.Together x x := by
  simp [has,index?,Together]

theorem IsProper.samePart_iff (h : s.IsProper) (hx : s.Together x x) (hy : s.Together y y) :
    s.samePart x y ↔ s.Together x y := by
  obtain ⟨c,hc,inC,-⟩ := hx
  obtain ⟨d,hd,inD,-⟩ := hy
  rw [samePart,h.index?_of_mem hc inC,h.index?_of_mem hd inD,h.together_iff hd inD]
  split
  next eq =>
    subst eq
    simp [inD]
  next =>
    simp only [beq_iff_eq]
    constructor
    · exact fun index => h.eq_of_index hc hd index ▸ inC
    · exact fun inD' => congrArg Prod.fst (h.eq_of_mem hc hd inC inD')

/-! ### Operations -/

theorem IsProper.remove_eq (h : s.IsProper) (hx : s.Together x x) :
    s.remove x = (.ok (),s.retain (· ≠ x)) := by
  obtain ⟨⟨i,xs⟩,hc,hx,-⟩ := hx
  have others {d : Nat × List α} (hd : d ∈ s.parts) (ne : d.1 ≠ i) : d.2.filter (· ≠ x) = d.2 := by
    rw [filter_eq_self]
    intro y hy
    have : y ≠ x := fun eq => ne (congrArg Prod.fst (h.eq_of_mem hd hc hy (eq ▸ hx)))
    simpa using this
  have changed : (s.modifyPart i fun ys => ys.filter (· ≠ x)).parts = s.parts.map fun p => (p.1,p.2.filter (· ≠ x)) := by
    refine map_congr_left fun d hd => ?_
    split
    next => rfl
    next ne => rw [others hd ne]
  have left : (s.modifyPart i fun ys => ys.filter (· ≠ x)).part i = xs.filter (· ≠ x) := by
    refine part_eq (c := (i,xs.filter (· ≠ x))) ?_ ?_
    · rw [changed]
      exact pairwise_map.2 h.keys
    · rw [changed]
      exact mem_map_of_mem (f := fun p : Nat × List α => (p.1,p.2.filter (· ≠ x))) hc
  have gone : ∀ d ∈ (s.modifyPart i fun ys => ys.filter (· ≠ x)).parts,
      d.2.isEmpty = (d.1 = i && (xs.filter (· ≠ x)).isEmpty) := by
    rw [changed]
    intro e he
    obtain ⟨d,hd,rfl⟩ := mem_map.1 he
    dsimp only
    by_cases eq : d.1 = i
    · cases h.eq_of_index hd hc eq
      simp
    · rw [others hd eq]
      simpa [eq] using h.nonempty d hd
  unfold remove
  rw [h.index?_of_mem hc hx]
  dsimp only
  rw [left,Partition.retain,← changed]
  refine congrArg (Prod.mk _) ?_
  split
  next empty =>
    refine congrArg (Partition.mk · s.next) (filter_congr fun d hd => ?_)
    rw [gone d hd,empty]
    simp
  next full =>
    refine congrArg (Partition.mk · s.next) (filter_eq_self.2 fun d hd => ?_).symm
    rw [gone d hd,eq_false_of_ne_true full]
    simp

theorem together_remove : (s.retain (· ≠ x)).Together = s.Together.remove x := by
  funext a b
  simp [together_retain,Equating.remove]

theorem mem_union : a ∈ union xs ys ↔ a ∈ xs ∨ a ∈ ys := by
  simp only [union,mem_append,mem_filter,Bool.not_eq_true',contains_eq_mem,decide_eq_false_iff_not]
  tauto

theorem nodup_union (hx : xs.Nodup) (hy : ys.Nodup) : (union xs ys).Nodup := by
  refine hx.append (hy.filter _) fun a inX inY => ?_
  simp [inX] at inY

theorem together_extend (h : s.IsProper) (hc : c ∈ s.parts) : (s.modifyPart c.1 fun xs => union xs ys).Together a b ↔
      s.Together a b ∨ (a ∈ c.2 ∨ a ∈ ys) ∧ (b ∈ c.2 ∨ b ∈ ys) := by
  simp only [Together,modifyPart,mem_map]
  constructor
  · rintro ⟨_,⟨d,hd,rfl⟩,ha,hb⟩
    by_cases index : d.1 = c.1
    · rw [if_pos index] at ha hb
      cases h.eq_of_index hd hc index
      exact .inr ⟨mem_union.1 ha,mem_union.1 hb⟩
    · rw [if_neg index] at ha hb
      exact .inl ⟨d,hd,ha,hb⟩
  · have longer {d : Nat × List α} {a : α} (ha : a ∈ d.2) :
        a ∈ (if d.1 = c.1 then (d.1,union d.2 ys) else d).2 := by
      split
      · exact mem_union.2 (.inl ha)
      · exact ha
    rintro (⟨d,hd,ha,hb⟩ | ⟨ha,hb⟩)
    · exact ⟨_,⟨d,hd,rfl⟩,longer ha,longer hb⟩
    · refine ⟨_,⟨c,hc,rfl⟩,?_⟩
      rw [if_pos rfl]
      exact ⟨mem_union.2 ha,mem_union.2 hb⟩

theorem IsProper.extend (h : s.IsProper) {k : Nat} (nodup : ys.Nodup)
    (new : ∀ y ∈ ys, ¬ s.Together y y) : (s.modifyPart k fun xs => union xs ys).IsProper := by
  have longer (d : Nat × List α) : (if d.1 = k then (d.1,union d.2 ys) else d).1 = d.1 ∧
      ∀ a ∈ (if d.1 = k then (d.1,union d.2 ys) else d).2, a ∈ d.2 ∨ d.1 = k ∧ a ∈ ys := by
    split
    next index => exact ⟨rfl,fun a ha => (mem_union.1 ha).imp_right (.intro index)⟩
    next => exact ⟨rfl,fun a ha => .inl ha⟩
  refine ⟨fun e he => ?_,fun e he => ?_,?_,fun e he => ?_⟩
  · obtain ⟨d,hd,rfl⟩ := mem_map.1 he
    split
    · simp [union,h.nonempty d hd]
    · exact h.nonempty d hd
  · obtain ⟨d,hd,rfl⟩ := mem_map.1 he
    split
    · exact nodup_union (h.nodup d hd) nodup
    · exact h.nodup d hd
  · refine pairwise_map.2 (h.apart.imp_of_mem fun {d e} hd he apart => ?_)
    rw [(longer d).1,(longer e).1]
    refine ⟨apart.1,fun a inD inE => ?_⟩
    obtain ha | ⟨index,ha⟩ := (longer d).2 a inD <;> obtain ha' | ⟨index',ha'⟩ := (longer e).2 a inE
    · exact apart.2 ha ha'
    · exact new a ha' ⟨d,hd,ha,ha⟩
    · exact new a ha ⟨e,he,ha',ha'⟩
    · exact apart.1 (index.trans index'.symm)
  · obtain ⟨d,hd,rfl⟩ := mem_map.1 he
    rw [(longer d).1]
    exact h.below d hd

theorem IsProper.merge (h : s.IsProper) (hx : s.Together x x) (hy : s.Together y y) :
    ∃ s', s.merge x y = (.ok (),s') ∧ s'.IsProper ∧ s'.Together = s.Together.merge x y := by
  have whole (a b : α) := Equating.merge_iff (r := s.Together) Together.symm h.trans hx hy (a := a) (b := b)
  obtain ⟨c,hc,inC,-⟩ := hx
  obtain ⟨d,hd,inD,-⟩ := hy
  simp only [h.together_iff hc inC,h.together_iff hd inD] at whole
  unfold Partition.merge
  rw [h.index?_of_mem hc inC,h.index?_of_mem hd inD]
  dsimp only
  split
  next index =>
    refine ⟨s,rfl,h,funext₂ fun a b => propext ?_⟩
    cases h.eq_of_index hc hd index
    rw [whole,or_self,or_self,or_iff_left_of_imp]
    exact fun both => ⟨c,hc,both⟩
  next apart =>
    have rest : c ∈ (s.erasePart d.1).parts := mem_filter.2 ⟨hc,by simpa using apart⟩
    refine ⟨_,rfl,(h.erasePart d.1).extend ?_ ?_,funext₂ fun a b => propext ?_⟩
    · rw [part_eq h.keys hd]
      exact h.nodup d hd
    · rw [part_eq h.keys hd]
      exact fun z hz known => ((together_erasePart h hd).1 known).2 hz
    · rw [together_extend (h.erasePart d.1) rest,together_erasePart h hd,part_eq h.keys hd,whole]
      constructor
      · exact fun known => known.imp_left And.left
      · rintro (known | both)
        · by_cases ha : a ∈ d.2
          · exact .inr ⟨.inr ha,.inr ((h.together_iff hd ha).1 known.symm)⟩
          · exact .inl ⟨known,ha⟩
        · exact .inr both

theorem IsProper.moveTo (h : s.IsProper) (hx : s.Together x x) (hy : s.Together y y) :
    ∃ s', s.moveTo x y = (.ok (),s') ∧ s'.IsProper ∧ s'.Together = s.Together.moveTo x y := by
  have same_iff := h.samePart_iff hx hy
  unfold Partition.moveTo
  split
  next same =>
    have pair : s.Together x y := same_iff.1 same
    refine ⟨s,rfl,h,funext₂ fun a b => propext ?_⟩
    have here (a : α) : a = x ∨ s.Together a y ↔ s.Together a x := by
      constructor
      · rintro (rfl | known)
        · exact hx
        · exact h.trans known pair.symm
      · exact fun known => .inr (h.trans known pair)
    simp only [Equating.moveTo,Equating.remove,here]
    constructor
    · intro known
      by_cases ha : a = x
      · subst ha
        exact .inr ⟨hx,known.symm⟩
      · by_cases hb : b = x
        · subst hb
          exact .inr ⟨known,hx⟩
        · exact .inl ⟨known,ha,hb⟩
    · rintro (⟨known,-⟩ | ⟨ha,hb⟩)
      · exact known
      · exact h.trans ha hb.symm
  next apart =>
    have far : ¬ s.Together x y := fun pair => apart (same_iff.2 pair)
    have ne : y ≠ x := fun eq => far (eq ▸ hx)
    have rest : (s.retain (· ≠ x)).IsProper := h.retain _
    have hy' : (s.retain (· ≠ x)).Together y y := together_retain.2 ⟨hy,by simpa using ne⟩
    rw [h.remove_eq hx]
    obtain ⟨d,hd,inD,-⟩ := hy'
    dsimp only
    rw [rest.index?_of_mem hd inD]
    refine ⟨_,rfl,rest.extend (nodup_singleton x) ?_,funext₂ fun a b => propext ?_⟩
    · rintro z hz known
      cases mem_singleton.1 hz
      simp [together_retain] at known
    · have here (a : α) : a ∈ d.2 ∨ a ∈ [x] ↔ a = x ∨ s.Together a y := by
        rw [← rest.together_iff hd inD,together_retain,mem_singleton]
        constructor
        · rintro (⟨known,-⟩ | rfl)
          · exact .inr known
          · exact .inl rfl
        · rintro (rfl | known)
          · exact .inr rfl
          · exact .inl ⟨known,by simpa using fun eq : a = x => far (eq ▸ known),by simpa using ne⟩
      rw [together_extend rest hd,here,here,together_remove]
      rfl

theorem IsProper.moveToSeparate (h : s.IsProper) (hx : s.Together x x) :
    ∃ s', s.moveToSeparate x = (.ok (),s') ∧ s'.IsProper ∧ s'.Together = s.Together.moveToSeparate x := by
  unfold Partition.moveToSeparate
  rw [h.remove_eq hx]
  refine ⟨_,rfl,(h.retain _).insert (by simp [together_retain]),?_⟩
  rw [together_insert,together_remove]
  rfl

/-! ### What two partitions agree on -/

def meet (s t : Partition α) (x : α) : List α :=
  match s.index? x, t.index? x with
  | some i, some j => (s.part i).filter (t.part j).contains
  | _, _ => []

theorem meet_eq (hs : s.IsProper) (ht : t.IsProper) (hc : c ∈ s.parts)
    (hd : d ∈ t.parts) (inC : x ∈ c.2) (inD : x ∈ d.2) : meet s t x = c.2.filter d.2.contains := by
  rw [meet,hs.index?_of_mem hc inC,ht.index?_of_mem hd inD]
  dsimp only
  rw [part_eq hs.keys hc,part_eq ht.keys hd]

theorem nodup_eraseDups {β : Type} [BEq β] [LawfulBEq β] (xs : List β) : xs.eraseDups.Nodup := by
  match xs with
  | [] => exact nodup_nil
  | x :: xs =>
    rw [eraseDups_cons,nodup_cons,mem_eraseDups]
    exact ⟨by simp,nodup_eraseDups _⟩
termination_by xs.length
decreasing_by exact Nat.lt_succ_of_le (length_filter_le _ _)

theorem IsProper.join (hs : s.IsProper) (ht : t.IsProper) (same : ∀ x, s.Together x x ↔ t.Together x x) :
    ∃ u, s.join t = .ok u ∧ u.IsProper ∧ u.Together = s.Together.join t.Together := by
  have all : (s.elements.all t.elements.contains && t.elements.all s.elements.contains) := by
    simp [mem_elements,same]
  have found {c : List α} (hc : c ∈ (s.elements.map (meet s t)).eraseDups) :
      ∃ d ∈ s.parts, ∃ e ∈ t.parts, (∃ x, x ∈ d.2 ∧ x ∈ e.2) ∧ c = d.2.filter e.2.contains := by
    obtain ⟨x,hx,rfl⟩ := mem_map.1 (mem_eraseDups.1 hc)
    have inS := mem_elements.1 hx
    obtain ⟨e,he,inE,-⟩ := (same x).1 inS
    obtain ⟨d,hd,inD,-⟩ := inS
    exact ⟨d,hd,e,he,⟨x,inD,inE⟩,meet_eq hs ht hd he inD inE⟩
  have separate : Separate (s.elements.map (meet s t)).eraseDups := by
    refine ⟨fun c hc => ?_,fun c hc => ?_,(nodup_eraseDups _).pairwise_of_forall_ne fun c hc c' hc' ne => ?_⟩
    · obtain ⟨d,hd,e,he,⟨x,inD,inE⟩,rfl⟩ := found hc
      exact ne_nil_of_mem (mem_filter.2 ⟨inD,by simpa using inE⟩)
    · obtain ⟨d,hd,e,he,-,rfl⟩ := found hc
      exact (hs.nodup d hd).filter _
    · obtain ⟨d,hd,e,he,-,rfl⟩ := found hc
      obtain ⟨d',hd',e',he',-,rfl⟩ := found hc'
      intro x hx hx'
      simp only [mem_filter,contains_eq_mem,decide_eq_true_eq] at hx hx'
      cases hs.eq_of_mem hd hd' hx.1 hx'.1
      cases ht.eq_of_mem he he' hx.2 hx'.2
      exact ne rfl
  unfold Partition.join
  rw [if_pos all]
  refine ⟨_,rfl,separate.isProper,funext₂ fun a b => propext (together_ofClasses.trans ?_)⟩
  constructor
  · rintro ⟨c,hc,ha,hb⟩
    obtain ⟨d,hd,e,he,-,rfl⟩ := found hc
    simp only [mem_filter,contains_eq_mem,decide_eq_true_eq] at ha hb
    exact ⟨⟨d,hd,ha.1,hb.1⟩,⟨e,he,ha.2,hb.2⟩⟩
  · rintro ⟨⟨d,hd,ha,hb⟩,⟨e,he,ha',hb'⟩⟩
    refine ⟨meet s t a,mem_eraseDups.2 (mem_map_of_mem (mem_elements.2 ⟨d,hd,ha,ha⟩)),?_⟩
    rw [meet_eq hs ht hd he ha ha']
    simp [ha,ha',hb,hb']

/-! ### Histories -/

inductive Change (α : Type) where
  | insert (x : α)
  | merge (x y : α)
  | remove (x : α)
  | moveTo (x y : α)
  | moveToSeparate (x : α)

namespace Change

def apply (s : Partition α) : Change α → Outcome Unit × Partition α
  | .insert x => (.ok (),s.insert x)
  | .merge x y => s.merge x y
  | .remove x => s.remove x
  | .moveTo x y => s.moveTo x y
  | .moveToSeparate x => s.moveToSeparate x

/-- Only absent elements are inserted, and all others have to be present. -/
def Allowed (r : Equating α) : Change α → Prop
  | .insert x => ¬ r x x
  | .merge x y | .moveTo x y => r x x ∧ r y y
  | .remove x | .moveToSeparate x => r x x

def relate (r : Equating α) : Change α → Equating α
  | .insert x => r.insert x
  | .merge x y => r.merge x y
  | .remove x => r.remove x
  | .moveTo x y => r.moveTo x y
  | .moveToSeparate x => r.moveToSeparate x

theorem step (h : s.IsProper) {change : Change α} (allowed : change.Allowed s.Together) :
    ∃ s', change.apply s = (.ok (),s') ∧ s'.IsProper ∧ s'.Together = change.relate s.Together := by
  cases change with
  | insert => exact ⟨_,rfl,h.insert allowed,together_insert⟩
  | merge => exact h.merge allowed.1 allowed.2
  | remove => exact ⟨_,h.remove_eq allowed,h.retain _,together_remove⟩
  | moveTo => exact h.moveTo allowed.1 allowed.2
  | moveToSeparate => exact h.moveToSeparate allowed

end Change

variable {rs : List (Equating α)}

/-- Operations on numbered partitions. New partitions are put behind the others. -/
inductive Operation (α : Type) where
  | create
  | change (k : Nat) (change : Change α)
  | copy (k : Nat) (keep : Option (List α))
  | separateAll (k : Nat)
  | join (j k : Nat)

def perform (isImmutable : α → Bool) (ss : List (Partition α)) : Operation α → Option (List (Partition α))
  | .create => some (ss ++ [{}])
  | .change k change => do
    match change.apply (← ss[k]?) with
    | (.ok (),s) => some (ss.set k s)
    | (.error _,_) => none
  | .copy k keep => do
    let s ← ss[k]?
    return ss ++ [match keep with | some xs => s.restrict xs | none => s]
  | .separateAll k => do return ss ++ [(← ss[k]?).separateAll isImmutable]
  | .join j k => do
    match (← ss[j]?).join (← ss[k]?) with
    | .ok s => some (ss ++ [s])
    | .error _ => none

/-- Operations that are allowed, and what they mean for the relations. -/
inductive Performs (isImmutable : α → Bool) : List (Equating α) → Operation α → List (Equating α) → Prop where
  | create {rs : List (Equating α)} : Performs isImmutable rs .create (rs ++ [.empty])
  | change {rs : List (Equating α)} {k : Nat} {r : Equating α} {change : Change α} :
      rs[k]? = some r → change.Allowed r → Performs isImmutable rs (.change k change) (rs.set k (change.relate r))
  | copy {rs : List (Equating α)} {k : Nat} {r : Equating α} {keep : Option (List α)} :
      rs[k]? = some r → Performs isImmutable rs (.copy k keep) (rs ++ [r.restrict keep])
  | separateAll {rs : List (Equating α)} {k : Nat} {r : Equating α} :
      rs[k]? = some r → Performs isImmutable rs (.separateAll k) (rs ++ [r.separateAll isImmutable])
  | join {rs : List (Equating α)} {j k : Nat} {r t : Equating α} : rs[j]? = some r → rs[k]? = some t → (∀ x, r x x ↔ t x x) →
      Performs isImmutable rs (.join j k) (rs ++ [r.join t])

/-- The relations after a sequence of allowed operations, without any partition at the start. -/
inductive History (isImmutable : α → Bool) : List (Operation α) → List (Equating α) → Prop where
  | start : History isImmutable [] []
  | next {ops : List (Operation α)} {op : Operation α} {rs rs' : List (Equating α)} :
      History isImmutable ops rs → Performs isImmutable rs op rs' → History isImmutable (ops ++ [op]) rs'

structure Represents (s : Partition α) (r : Equating α) : Prop where
  proper : s.IsProper
  has_iff : ∀ x, s.has x = true ↔ r x x
  samePart_iff : ∀ x y, s.has x = true → s.has y = true → (s.samePart x y = true ↔ r x y)

theorem IsProper.represents (h : s.IsProper) : Represents s s.Together where
  proper := h
  has_iff _ := has_iff
  samePart_iff _ _ hx hy := h.samePart_iff (has_iff.1 hx) (has_iff.1 hy)

theorem together_copy {keep : Option (List α)} :
    Together (match keep with | some xs => s.restrict xs | none => s) = s.Together.restrict keep := by
  funext a b
  cases keep with
  | none => simp [Equating.restrict]
  | some xs =>
    have retained : s.restrict xs = s.retain xs.contains := rfl
    simp [retained,together_retain,Equating.restrict]

theorem perform_of_performs {ss : List (Partition α)} (proper : ∀ s ∈ ss, s.IsProper)
    {op : Operation α} (h : Performs isImmutable (ss.map Together) op rs) :
    ∃ ss', perform isImmutable ss op = some ss' ∧ (∀ s ∈ ss', s.IsProper) ∧ ss'.map Together = rs := by
  have entry {k : Nat} {r : Equating α} (known : (ss.map Together)[k]? = some r) :
      ∃ s, ss[k]? = some s ∧ s.IsProper ∧ s.Together = r := by
    obtain ⟨s,found,rfl⟩ := Option.map_eq_some_iff.1 (getElem?_map ▸ known)
    exact ⟨s,found,proper s (mem_of_getElem? found),rfl⟩
  have added {s : Partition α} (hs : s.IsProper) : ∀ s' ∈ ss ++ [s], s'.IsProper := by
    simpa [or_imp,forall_and] using ⟨proper,hs⟩
  generalize same : ss.map Together = before at h
  cases h with
  | create =>
    refine ⟨_,rfl,added isProper_empty,?_⟩
    rw [map_append,same]
    refine congrArg (before ++ [·]) (funext₂ fun a b => ?_)
    simp [Together,Equating.empty]
  | @change k _ change known allowed =>
    obtain ⟨s,found,hs,rfl⟩ := entry (same ▸ known)
    obtain ⟨s',applied,hs',related⟩ := Change.step hs allowed
    refine ⟨ss.set k s',by simp [perform,found,applied],fun u hu => ?_,by rw [map_set,related,same]⟩
    obtain hu | rfl := mem_or_eq_of_mem_set hu
    · exact proper u hu
    · exact hs'
  | @copy k _ keep known =>
    obtain ⟨s,found,hs,rfl⟩ := entry (same ▸ known)
    refine ⟨_,by simp only [perform,found]; rfl,added ?_,by rw [map_append,same,map_singleton,together_copy]⟩
    cases keep with
    | none => exact hs
    | some xs => exact hs.retain xs.contains
  | separateAll known =>
    obtain ⟨s,found,hs,rfl⟩ := entry (same ▸ known)
    refine ⟨_,by simp only [perform,found]; rfl,added (hs.separateAll isImmutable),?_⟩
    rw [map_append,same,map_singleton,together_separateAll]
  | join known known' elements =>
    obtain ⟨s,found,hs,rfl⟩ := entry (same ▸ known)
    obtain ⟨t,found',ht,rfl⟩ := entry (same ▸ known')
    obtain ⟨u,joined,hu,related⟩ := hs.join ht elements
    refine ⟨ss ++ [u],by simp [perform,found,found',joined],added hu,?_⟩
    rw [map_append,same,map_singleton,related]

theorem perform_of_history {ops : List (Operation α)} (h : History isImmutable ops rs) :
    ∃ ss, ops.foldlM (perform isImmutable) [] = some ss ∧ (∀ s ∈ ss, s.IsProper) ∧ ss.map Together = rs := by
  induction h with
  | start => exact ⟨[],rfl,by simp,rfl⟩
  | next _ step ih =>
    obtain ⟨ss,run,proper,rfl⟩ := ih
    obtain ⟨ss',last,rest⟩ := perform_of_performs proper step
    exact ⟨ss',by simp [foldlM_append,run,last],rest⟩

/-! ### Operations that fail -/

variable {s' : Partition α} {k : Nat} {e : Fault}

theorem exists_of_index? (h : s.index? x = some k) : ∃ xs, (k,xs) ∈ s.parts ∧ x ∈ xs := by
  obtain ⟨⟨_,xs⟩,found,rfl⟩ := Option.map_eq_some_iff.1 h
  exact ⟨xs,mem_of_find?_eq_some found,by simpa using find?_some found⟩

theorem erasePart_ne (h : s.index? x = some k) : s.erasePart k ≠ s := by
  obtain ⟨xs,hc,-⟩ := exists_of_index? h
  intro same
  rw [← same] at hc
  simp [erasePart] at hc

theorem remove_ne (h : s.index? x = some k) : (s.remove x).2 ≠ s := by
  obtain ⟨xs,hc,hx⟩ := exists_of_index? h
  have gone : ∀ d ∈ (s.remove x).2.parts, d.1 = k → x ∉ d.2 := by
    intro d hd index
    have hd : d ∈ (s.modifyPart k fun ys => ys.filter (· ≠ x)).parts := by
      rw [remove,h] at hd
      dsimp only at hd
      split at hd
      · exact mem_of_mem_filter hd
      · exact hd
    obtain ⟨c,-,rfl⟩ := mem_map.1 hd
    split at index
    next here => simp [here]
    next other => exact absurd index other
  intro same
  rw [same] at gone
  exact gone _ hc rfl hx

namespace Change

/-- Does the operation leave everything in its place when it fails? -/
def KeptOnFailure (s : Partition α) : Change α → Prop
  | .merge x _ => s.has x = true
  | .moveTo x _ => s.has x = false
  | _ => True

/-- What is left of the classes when the operation fails: without the class of the second element or without the
first element, if they were there at all. -/
def leftover (r : Equating α) : Change α → Equating α
  | .merge _ y => fun a b => r a b ∧ ¬ r a y
  | .moveTo x _ => r.remove x
  | _ => r

end Change

theorem has_iff_index? : s.has x ↔ ∃ k, s.index? x = some k :=
  Option.isSome_iff_exists

theorem remove_cases (s : Partition α) (x : α) :
    s.index? x = none ∧ s.remove x = (.error .violated,s) ∨ ∃ k s', s.index? x = some k ∧ s.remove x = (.ok (),s') := by
  unfold remove
  cases s.index? x with
  | none => exact .inl ⟨rfl,rfl⟩
  | some k => exact .inr ⟨k,_,rfl,rfl⟩

theorem not_together (h : s.index? x = none) (a : α) : ¬ s.Together a x := by
  intro known
  have present := has_iff.2 (known.symm.left)
  simp [has,h] at present

theorem remove_absent (h : s.index? x = none) : s.Together.remove x = s.Together := by
  funext a b
  refine propext ⟨And.left,fun known => ⟨known,?_,?_⟩⟩
  · rintro rfl
    exact not_together h a known.left
  · rintro rfl
    exact not_together h a known

theorem merge_failed (failed : s.merge x y = (.error e,s')) : (∃ k, s.index? x = some k) ∧ s.index? y = none ∧ s' = s ∨
      ∃ k, s.index? x = none ∧ s.index? y = some k ∧ s' = s.erasePart k := by
  unfold merge at failed
  cases hx : s.index? x <;> cases hy : s.index? y <;> simp only [hx,hy] at failed
  · cases failed
  · exact .inr ⟨_,rfl,rfl,(Prod.mk.inj failed).2.symm⟩
  · exact .inl ⟨⟨_,rfl⟩,rfl,(Prod.mk.inj failed).2.symm⟩
  · split at failed <;> cases failed

theorem moveTo_failed (failed : s.moveTo x y = (.error e,s')) :
    s.index? x = none ∧ s' = s ∨ ∃ k, s.index? x = some k ∧ s.remove x = (.ok (),s') := by
  unfold moveTo at failed
  split at failed
  · cases failed
  · obtain ⟨hx,removed⟩ | ⟨k,t,hx,removed⟩ := remove_cases s x <;> rw [removed] at failed
    · exact .inl ⟨hx,(Prod.mk.inj failed).2.symm⟩
    · dsimp only at failed
      split at failed
      · obtain ⟨-,rfl⟩ := Prod.mk.inj failed
        exact .inr ⟨k,hx,removed⟩
      · cases failed

end Partition

open Confidential.Partition

/-- Along a history of allowed operations nothing fails, and every partition stands for its relation. -/
theorem partitions_represent_relations {α : Type} [DecidableEq α] {isImmutable : α → Bool} {ops : List (Operation α)}
    {rs : List (Equating α)} (h : History isImmutable ops rs) :
    ∃ ss, ops.foldlM (perform isImmutable) [] = some ss ∧ List.Forall₂ Represents ss rs := by
  obtain ⟨ss,run,proper,rfl⟩ := perform_of_history h
  refine ⟨ss,run,forall₂_map_right_iff.2 ?_⟩
  exact forall₂_same.2 fun s hs => (proper s hs).represents

/-- Two elements that are brought together in a copy only. -/
def pairedCopy : List (Operation Nat) :=
  [.create,.change 0 (.insert 1),.change 0 (.insert 2),.copy 0 none,.change 1 (.moveTo 1 2),.join 0 1,.separateAll 1,
    .change 1 (.merge 1 2),.change 2 (.remove 1)]

theorem pairedCopy_represented : ∃ rs, History (fun _ => false) pairedCopy rs ∧
    ∃ ss, pairedCopy.foldlM (perform fun _ => false) [] = some ss ∧ List.Forall₂ Represents ss rs := by
  have history : ∃ rs, History (fun _ => false) pairedCopy rs := by
    refine ⟨_,((((((((History.start.next .create).next (.change rfl ?_)).next (.change rfl ?_)).next (.copy rfl)).next
      (.change rfl ?_)).next (.join rfl rfl ?_)).next (.separateAll rfl)).next (.change rfl ?_)).next (.change rfl ?_)⟩
    all_goals simp [Change.Allowed,Change.relate,Equating.empty,Equating.insert,Equating.restrict,Equating.moveTo,
      Equating.remove,Equating.join]
  obtain ⟨rs,history⟩ := history
  exact ⟨rs,history,partitions_represent_relations history⟩

/-- A merge that fails loses the class of the second element, a move that fails loses the first element, and nothing
else is lost by operations that fail. -/
theorem failed_change_kept_iff {α : Type} [DecidableEq α] {s s' : Partition α} {c : Change α} {e : Fault}
    (failed : c.apply s = (.error e,s')) :
    (s' = s ↔ c.KeptOnFailure s) ∧ (s.IsProper → s'.IsProper ∧ s'.Together = c.leftover s.Together) := by
  cases c with
  | insert x => cases failed
  | merge x y =>
    obtain ⟨hx,hy,rfl⟩ | ⟨k,hx,hy,rfl⟩ := merge_failed failed
    · refine ⟨iff_of_true rfl (has_iff_index?.2 hx),fun h => ⟨h,funext₂ fun a b => propext ?_⟩⟩
      exact (and_iff_left (not_together hy a)).symm
    · obtain ⟨ys,hc,inC⟩ := exists_of_index? hy
      refine ⟨iff_of_false (erasePart_ne hy) (by simp [Change.KeptOnFailure,has,hx]),fun h => ⟨h.erasePart k,?_⟩⟩
      refine funext₂ fun a b => propext ((together_erasePart h hc).trans ?_)
      exact and_congr_right fun _ => not_congr (h.together_iff hc inC).symm
  | moveTo x y =>
    obtain ⟨hx,rfl⟩ | ⟨k,hx,removed⟩ := moveTo_failed failed
    · exact ⟨iff_of_true rfl (by simp [Change.KeptOnFailure,has,hx]),fun h => ⟨h,(remove_absent hx).symm⟩⟩
    · have present := has_iff_index?.2 ⟨k,hx⟩
      refine ⟨iff_of_false ?_ (by simp [Change.KeptOnFailure,present]),fun h => ?_⟩
      · exact fun same => remove_ne hx (removed ▸ same)
      · obtain ⟨-,rfl⟩ := Prod.mk.inj (removed.symm.trans (h.remove_eq (has_iff.1 present)))
        exact ⟨h.retain _,together_remove⟩
  | remove x =>
    obtain ⟨-,removed⟩ | ⟨k,t,-,removed⟩ := remove_cases s x
    · obtain ⟨-,rfl⟩ := Prod.mk.inj (removed.symm.trans failed)
      exact ⟨iff_of_true rfl trivial,fun h => ⟨h,rfl⟩⟩
    · cases removed.symm.trans failed
  | moveToSeparate x =>
    simp only [Change.apply,moveToSeparate] at failed
    obtain ⟨-,removed⟩ | ⟨k,t,-,removed⟩ := remove_cases s x <;> rw [removed] at failed
    · obtain ⟨-,rfl⟩ := Prod.mk.inj failed
      exact ⟨iff_of_true rfl trivial,fun h => ⟨h,rfl⟩⟩
    · cases failed

def twins : Partition Nat :=
  ⟨[(0,[1,2])],1⟩

theorem twins_lost_and_kept :
    (∃ s', (Change.merge 3 1).apply twins = (.error .unknownKey,s') ∧ s' ≠ twins) ∧
    (∃ s', (Change.moveTo 1 3).apply twins = (.error .unknownKey,s') ∧ s' ≠ twins) ∧
    ∃ s', (Change.merge 1 3).apply twins = (.error .unknownKey,s') ∧ s' = twins := by
  have merged := failed_change_kept_iff (s := twins) (c := .merge 3 1) rfl
  have moved := failed_change_kept_iff (s := twins) (c := .moveTo 1 3) rfl
  have kept := failed_change_kept_iff (s := twins) (c := .merge 1 3) rfl
  exact ⟨⟨_,rfl,merged.1.not.2 (by simp [Change.KeptOnFailure,twins,has,index?])⟩,
    ⟨_,rfl,moved.1.not.2 (by simp [Change.KeptOnFailure,twins,has,index?])⟩,
    ⟨_,rfl,kept.1.2 (by simp [Change.KeptOnFailure,twins,has,index?])⟩⟩

end Confidential
