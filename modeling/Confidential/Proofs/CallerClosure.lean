import Mathlib
import Confidential.Compiler

/-!
Marks that spread to callers.
-/

namespace Confidential.Marking

open List

def CallsIn (names : List String) (calls : Calls) (a b : String) : Prop :=
  a ∈ names ∧ (a,b) ∈ calls

/-- The marks `m` are kept in `m'`, and unless nothing changes a name is marked that was not. -/
structure Spreads (names m m' : List String) : Prop where
  kept : m <+: m'
  unique : m.Nodup → m'.Nodup
  progress : m' = m ∨ ∃ x ∈ names, x ∉ m ∧ x ∈ m'

namespace Spreads

variable {names m m' m'' : List String}

theorem refl : Spreads names m m :=
  ⟨prefix_rfl,fun h => h,.inl rfl⟩

theorem trans (h : Spreads names m m') (h' : Spreads names m' m'') : Spreads names m m'' := by
  refine ⟨h.kept.trans h'.kept,fun once => h'.unique (h.unique once),?_⟩
  obtain rfl | ⟨x,hx,new,mem⟩ := h.progress
  · exact h'.progress
  · exact .inr ⟨x,hx,new,h'.kept.subset mem⟩

theorem foldl {step : List String → String → List String} {xs : List String}
    (each : ∀ m, ∀ x ∈ xs, Spreads names m (step m x)) (m : List String) : Spreads names m (xs.foldl step m) := by
  induction xs generalizing m with
  | nil => exact refl
  | cons x _ ih =>
    exact (each m x mem_cons_self).trans (ih (fun m y hy => each m y (mem_cons_of_mem _ hy)) _)

end Spreads

variable {names : List String} {calls : Calls}

variable {m r : List String} {P : String → Prop}

variable {x : String} {fuel : Nat}

theorem mem_markCallers {callee : String} :
    x ∈ markCallers names calls callee m ↔ x ∈ m ∨ CallsIn names calls x callee := by
  unfold markCallers CallsIn
  induction names generalizing m with
  | nil => simp
  | cons _ _ ih =>
    rw [foldl_cons,ih]
    grind

theorem spreads_markCallers (callee : String) (m : List String) : Spreads names m (markCallers names calls callee m) := by
  refine Spreads.foldl (fun m f hf => ?_) m
  split
  next new => exact ⟨prefix_append _ _,fun once => by grind,.inr ⟨f,hf,new.2,by simp⟩⟩
  next => exact .refl

def visit (names : List String) (calls : Calls) (m : List String) (g : String) : List String :=
  if g ∈ m then markCallers names calls g m else m

theorem spreads_visits (gs m : List String) : Spreads names m (gs.foldl (visit names calls) m) := by
  refine Spreads.foldl (fun m g _ => ?_) m
  unfold visit
  split
  · exact spreads_markCallers g m
  · exact .refl

theorem forall_visits (callers : ∀ a b, CallsIn names calls a b → P b → P a) (gs : List String)
    (marked : ∀ x ∈ m, P x) : ∀ x ∈ gs.foldl (visit names calls) m, P x := by
  induction gs generalizing m with
  | nil => exact marked
  | cons g _ ih =>
    refine ih fun x hx => ?_
    unfold visit at hx
    split at hx
    next hg => exact (mem_markCallers.1 hx).elim (marked x) fun call => callers x g call (marked g hg)
    next => exact marked x hx

theorem mem_visits {a b : String} (call : CallsIn names calls a b) {gs : List String} (visited : b ∈ gs)
    (marked : b ∈ m) : a ∈ gs.foldl (visit names calls) m := by
  obtain ⟨before,after,rfl⟩ := append_of_mem visited
  have still : b ∈ before.foldl (visit names calls) m := (spreads_visits before m).kept.subset marked
  rw [foldl_append,foldl_cons,visit,if_pos still]
  exact (spreads_visits after _).kept.subset (mem_markCallers.2 (.inr call))

def unmarked (names m : List String) : Nat :=
  (names.filter (· ∉ m)).length

theorem Spreads.unmarked_lt {m' : List String} (h : Spreads names m m') (change : m' ≠ m) :
    unmarked names m' < unmarked names m := by
  obtain eq | ⟨x,known,new,mem⟩ := h.progress
  · exact absurd eq change
  have fewer : names.filter (· ∉ m') = (names.filter (· ∉ m)).filter (· ∉ m') := by
    rw [filter_filter]
    refine filter_congr fun y _ => ?_
    have kept : y ∈ m → y ∈ m' := fun hy => h.kept.subset hy
    grind
  rw [unmarked,fewer,unmarked,length_filter_lt_length_iff_exists]
  exact ⟨x,by simp [known,new],by simp [mem]⟩

/-- The loop itself, with no bound on its rounds: a round that leaves the number of marks as it was is the last one. -/
inductive Ends (names : List String) (calls : Calls) : List String → List String → Prop
  | last {m : List String} (same : (round names calls m).length = m.length) : Ends names calls m (round names calls m)
  | again {m r : List String} (new : (round names calls m).length ≠ m.length) (rest : Ends names calls (round names calls m) r) :
    Ends names calls m r

theorem Ends.eq {r' : List String} (h : Ends names calls m r) (h' : Ends names calls m r') : r = r' := by
  induction h with
  | last same =>
    cases h' with
    | last => rfl
    | again new => exact absurd same new
  | again new _ ih =>
    cases h' with
    | last same => exact absurd same new
    | again _ rest => exact ih rest

theorem Spreads.unmarked_round_lt (new : (round names calls m).length ≠ m.length) :
    unmarked names (round names calls m) < unmarked names m :=
  Spreads.unmarked_lt (spreads_visits names m) fun eq => new (congrArg List.length eq)

theorem ends_rounds (enough : unmarked names m < fuel) :
    Ends names calls m (rounds names calls fuel m) := by
  induction fuel generalizing m with
  | zero => exact absurd enough (Nat.not_lt_zero _)
  | succ _ ih =>
    rw [rounds]
    split
    next same => exact .last same
    next new => exact .again new (ih (by have := Spreads.unmarked_round_lt new; omega))

theorem round_rounds (enough : unmarked names m < fuel) :
    round names calls (rounds names calls fuel m) = rounds names calls fuel m := by
  induction fuel generalizing m with
  | zero => exact absurd enough (Nat.not_lt_zero _)
  | succ _ ih =>
    have spreads : Spreads names m (round names calls m) := spreads_visits names m
    rw [rounds]
    split
    next same =>
      have stable : round names calls m = m := (spreads.kept.eq_of_length same.symm).symm
      rw [stable,stable]
    next new => exact ih (by have := Spreads.unmarked_round_lt new; omega)

theorem prefix_rounds (fuel : Nat) (m : List String) : m <+: rounds names calls fuel m := by
  induction fuel generalizing m with
  | zero => exact prefix_rfl
  | succ _ ih =>
    have first : m <+: round names calls m := (spreads_visits names m).kept
    rw [rounds]
    split
    · exact first
    · exact first.trans (ih _)

theorem nodup_of_ends (h : Ends names calls m r) (once : m.Nodup) : r.Nodup := by
  induction h with
  | last => exact (spreads_visits names _).unique once
  | again _ _ ih => exact ih ((spreads_visits names _).unique once)

theorem forall_rounds (callers : ∀ a b, CallsIn names calls a b → P b → P a) (fuel : Nat)
    (marked : ∀ x ∈ m, P x) : ∀ x ∈ rounds names calls fuel m, P x := by
  induction fuel generalizing m with
  | zero => exact marked
  | succ _ ih =>
    have first := forall_visits callers names marked
    rw [rounds]
    split
    · exact first
    · exact ih first

theorem mem_close_iff (known : m ⊆ names) :
    x ∈ close names calls m ↔ ∃ b ∈ m, Relation.ReflTransGen (CallsIn names calls) x b := by
  constructor
  · have callers a b (call : CallsIn names calls a b)
        (h : ∃ c ∈ m, Relation.ReflTransGen (CallsIn names calls) b c) :
        ∃ c ∈ m, Relation.ReflTransGen (CallsIn names calls) a c :=
      h.imp fun _ h => ⟨h.1,.head call h.2⟩
    exact forall_rounds callers _ (fun b hb => ⟨b,hb,.refl⟩) x
  · rintro ⟨b,hb,path⟩
    have all : close names calls m ⊆ names := forall_rounds (fun a b call _ => call.1) _ known
    have stable : round names calls (close names calls m) = close names calls m :=
      round_rounds (Nat.lt_succ_of_le (length_filter_le _ _))
    induction path using Relation.ReflTransGen.head_induction_on with
    | refl => exact (prefix_rounds _ m).subset hb
    | head call _ ih => exact stable ▸ mem_visits call (all ih) ih

theorem ends_close (m : List String) : Ends names calls m (close names calls m) :=
  ends_rounds (Nat.lt_succ_of_le (length_filter_le _ _))

/-- The marks are closed backwards: the loop ends, each name is marked once, and a name is marked exactly if it reaches
one of the first marks in zero or more calls. The order of names, of calls and of first marks makes no difference. -/
theorem marks_closed_backwards (names : List String) (calls : Calls) (marked : List String) (known : marked ⊆ names)
    (once : marked.Nodup) :
    (∀ r, Ends names calls marked r ↔ r = close names calls marked) ∧ (close names calls marked).Nodup ∧
      (∀ x, x ∈ close names calls marked ↔ ∃ b ∈ marked, Relation.ReflTransGen (CallsIn names calls) x b) ∧
      ∀ names' calls' marked', names.Perm names' → (∀ c, c ∈ calls ↔ c ∈ calls') → marked.Perm marked' →
        (close names calls marked).Perm (close names' calls' marked') := by
  have unique {names : List String} {calls : Calls} {m : List String} (h : m.Nodup) : (close names calls m).Nodup :=
    nodup_of_ends (ends_close m) h
  refine ⟨fun r => ⟨fun h => h.eq (ends_close marked),fun h => h ▸ ends_close marked⟩,unique once,
    fun x => mem_close_iff known,fun names' calls' marked' perm same permMarked => ?_⟩
  have known' : marked' ⊆ names' := fun x hx => perm.subset (known (permMarked.symm.subset hx))
  have calls_eq : CallsIn names calls = CallsIn names' calls' := by
    funext a b
    simp only [CallsIn,perm.mem_iff,same]
  refine (perm_ext_iff_of_nodup (unique once) (unique (permMarked.nodup_iff.1 once))).2 fun x => ?_
  rw [mem_close_iff known,mem_close_iff known',calls_eq]
  simp only [permMarked.mem_iff]

/-- A chain of calls, named from its start: every round marks one caller, and what a marked function calls stays unmarked. -/
theorem chain_marked_backwards :
    "f" ∈ close ["f","g","h","k"] [("f","g"),("g","h"),("h","k")] ["h"] ∧
      "k" ∉ close ["f","g","h","k"] [("f","g"),("g","h"),("h","k")] ["h"] ∧
      ∀ r, Ends ["f","g","h","k"] [("f","g"),("g","h"),("h","k")] ["h"] r ↔ r = ["h","g","f"] :=
  ⟨by decide,by decide,
    (marks_closed_backwards ["f","g","h","k"] [("f","g"),("g","h"),("h","k")] ["h"] (by decide) (by decide)).1⟩

end Confidential.Marking
