import Confidential.Proofs.EquivalenceClasses
import Confidential.Proofs.Runs

/-!
What an assignment does to the values of owners, and what the analysis makes of it.
-/

namespace Confidential

namespace Partition

variable {α : Type} [DecidableEq α]

variable {s : Partition α} {x y : α}

theorem IsProper.samePart_iff_eq_or (h : s.IsProper) :
    s.samePart x y ↔ x = y ∨ s.Together x y := by
  constructor
  · intro same
    by_cases eq : x = y
    · exact .inl eq
    rw [samePart,if_neg eq] at same
    split at same
    next i j first second =>
      have hx : s.Together x x := has_iff.1 (by simp [has,first])
      have hy : s.Together y y := has_iff.1 (by simp [has,second])
      refine .inr ((h.samePart_iff hx hy).1 ?_)
      simp [samePart,eq,first,second,beq_iff_eq.1 same]
    next => cases same
  · rintro (rfl | pair)
    · simp [samePart]
    · exact (h.samePart_iff pair.left pair.symm.left).2 pair

theorem IsProper.samePart_symm (h : s.IsProper) (same : s.samePart x y) :
    s.samePart y x := by
  rw [h.samePart_iff_eq_or] at same ⊢
  exact same.imp Eq.symm .symm

theorem IsProper.samePart_trans (h : s.IsProper) {z : α} (same : s.samePart x y)
    (same' : s.samePart y z) : s.samePart x z := by
  rw [h.samePart_iff_eq_or] at same same' ⊢
  obtain rfl | same := same
  · exact same'
  obtain rfl | same' := same'
  · exact .inr same
  · exact .inr (h.trans same same')

end Partition

namespace Aliases

/-- A value that is stored for an owner, and the owner that it is read from, if there is one. -/
structure Store where
  place : Label
  source : Option Label
deriving DecidableEq

def places (named? : Node → Option Label) : Node → List Label
  | .tuple _ ls => ls.attach.flatMap fun ⟨l,_⟩ => places named? l
  | n => (named? n).toList
termination_by n => sizeOf n

/-- What an assignment stores for owners, from left to right. -/
def stores (named? : Node → Option Label) : Node → Node → List Store
  | .tuple _ ls, .tuple _ rs => (ls.attach.zip rs).flatMap fun (⟨l,_⟩,r) => stores named? l r
  | .tuple i ls, _ => (places named? (.tuple i ls)).map fun x => ⟨x,none⟩
  | left, right => (named? left).toList.map fun x => ⟨x,named? right⟩
termination_by left => sizeOf left

def take (s : Partition Label) (st : Store) : Outcome (Partition Label) :=
  match st.source with
  | some y => settled (s.moveTo st.place y)
  | none => .ok s

end Aliases

/-- The owner that an expression names, if it can be found out. -/
def Program.named? (p : Program) (n : Node) : Option Label :=
  match p.label n with
  | .ok found => found
  | .error _ => none

namespace Aliases

theorem foldlM_flatMap {α β σ : Type} {f : σ → β → Outcome σ} {g : α → List β} {h : σ → α → Outcome σ} {as : List α}
    (each : ∀ a ∈ as, ∀ s t, h s a = .ok t → (g a).foldlM f s = .ok t) {s t : σ} (run : as.foldlM h s = .ok t) :
    (as.flatMap g).foldlM f s = .ok t := by
  induction as generalizing s with
  | nil => exact run
  | cons _ _ ih =>
    rw [List.forall_mem_cons] at each
    rw [List.foldlM_cons,bind_ok] at run
    obtain ⟨u,first,rest⟩ := run
    rw [List.flatMap_cons,List.foldlM_append,each.1 s u first]
    exact ih each.2 rest

variable {s t : Partition Label} {p : Program}

variable {x y : Label}

theorem label_tuple {i : Info} {ls : List Node} : p.label (.tuple i ls) = .ok none :=
  rfl

theorem foldlM_take_of_assign {left right : Node}
    (h : assign p left right s = .ok t) : (stores p.named? left right).foldlM take s = .ok t := by
  fun_induction stores p.named? left right generalizing s t with
  | case1 _ _ _ _ ih =>
    rw [assign] at h
    exact foldlM_flatMap (fun x _ _ _ run => ih x.1.1 x.1.2 x.2 run) h
  | case2 i ls _ single =>
    rw [assign.eq_2 _ _ _ _ (fun _ _ _ rs _ eq => single _ rs eq),label_tuple] at h
    obtain ⟨_,⟨⟩,h⟩ := bind_ok.1 h
    obtain ⟨_,-,⟨⟩⟩ := bind_ok.1 h
    induction places p.named? (.tuple i ls) with
    | nil => rfl
    | cons _ _ ih => exact ih
  | case3 _ _ _ alone =>
    rw [assign.eq_2 _ _ _ _ (fun i ls _ _ eq _ => alone i ls eq)] at h
    obtain ⟨x,labelled,h⟩ := bind_ok.1 h
    obtain ⟨y,labelled',h⟩ := bind_ok.1 h
    simp only [Program.named?,labelled,labelled']
    cases x with
    | none => exact h
    | some =>
      cases y with
      | none => exact h
      | some => simpa [take] using h

/-! ### What the classes after an assignment stand for -/

/-- The owner whose value an owner has after the store, as the analysis sees it. -/
def Store.origin (st : Store) (a : Label) : Label :=
  if a = st.place then st.source.getD a else a

/-- The owner whose value an owner has after the stores, if they are done one after the other. -/
def origin : List Store → Label → Label
  | [], a => a
  | st :: rest, a => st.origin (origin rest a)

theorem present_of_moveTo (proper : s.IsProper) (ne : x ≠ y)
    (h : settled (s.moveTo x y) = .ok t) : s.Together x x ∧ s.Together y y := by
  unfold Partition.moveTo at h
  split at h
  next same =>
    have pair : s.Together x y := (proper.samePart_iff_eq_or.1 same).resolve_left ne
    exact ⟨pair.left,pair.symm.left⟩
  next =>
    by_cases hx : s.Together x x
    · refine ⟨hx,?_⟩
      rw [proper.remove_eq hx] at h
      split at h
      next failed => cases failed
      next removed =>
        cases removed
        split at h
        next => cases h
        next j found =>
          have hy : (s.retain (· ≠ x)).Together y y :=
            Partition.has_iff.1 (by rw [Partition.has,found]; rfl)
          exact (Partition.together_retain.1 hy).1
    · have absent : s.index? x = none := by
        simpa [Partition.has] using (not_congr Partition.has_iff).2 hx
      simp [Partition.remove,absent,settled] at h

theorem together_moveTo (proper : s.IsProper) (ne : x ≠ y)
    (h : settled (s.moveTo x y) = .ok t) : t.IsProper ∧ t.Together = s.Together.moveTo x y := by
  obtain ⟨hx,hy⟩ := present_of_moveTo proper ne h
  obtain ⟨u,moved,proper,related⟩ := proper.moveTo hx hy
  rw [moved] at h
  cases h
  exact ⟨proper,related⟩

theorem take_spec (proper : s.IsProper) {st : Store} (h : take s st = .ok t) :
    t.IsProper ∧ ∀ a b, t.samePart a b = s.samePart (st.origin a) (st.origin b) := by
  obtain ⟨x,source⟩ := st
  cases source with
  | none =>
    cases h
    exact ⟨proper,fun a b => by simp [Store.origin]⟩
  | some y =>
    by_cases eq : x = y
    · subst eq
      have same : t = s := by simpa [take,Partition.moveTo,Partition.samePart,settled,eq_comm] using h
      have here (a : Label) : (if a = x then x else a) = a := by simp +contextual
      exact ⟨same ▸ proper,fun a b => by simp [Store.origin,same,here]⟩
    · obtain ⟨-,hy⟩ := present_of_moveTo proper eq h
      obtain ⟨proper',related⟩ := together_moveTo proper eq h
      refine ⟨proper',fun a b => Bool.eq_iff_iff.2 ?_⟩
      rw [proper'.samePart_iff_eq_or,proper.samePart_iff_eq_or,related,
        Equating.moveTo_iff (r := s.Together) .symm proper.trans hy]
      simp only [Store.origin,Option.getD_some]
      constructor
      · rintro (rfl | pair)
        · exact .inl rfl
        · exact .inr pair
      · rintro (same | pair)
        · split at same <;> split at same
          next => simp_all
          next => simp_all
          next => simp_all
          next => exact .inl same
        · exact .inr pair

theorem foldlM_take (proper : s.IsProper) {work : List Store} (h : work.foldlM take s = .ok t) :
    t.IsProper ∧ ∀ a b, t.samePart a b = s.samePart (origin work a) (origin work b) := by
  induction work generalizing s with
  | nil =>
    cases h
    exact ⟨proper,fun _ _ => rfl⟩
  | cons _ _ ih =>
    rw [List.foldlM_cons,bind_ok] at h
    obtain ⟨u,first,h⟩ := h
    obtain ⟨proper,one⟩ := take_spec proper first
    obtain ⟨proper,all⟩ := ih proper h
    exact ⟨proper,fun a b => by rw [all,one]; rfl⟩

/-! ### What an assignment really does -/

/-- The owner whose value an owner has once everything is evaluated. -/
def kept (isImmutable : Label → Bool) (effects : Bool) (a : Label) : Option Label :=
  if effects && !isImmutable a then none else some a

section Execution

variable (known : Label → Option Label)

def learn (f : Label → Option Label) (st : Store) : Label → Option Label :=
  Function.update f st.place (st.source.bind known)

/-- The owner whose value an owner has after all stores, if there is one. The last store counts. -/
def held (work : List Store) : Label → Option Label :=
  work.foldl (learn known) known

def put {V : Type} (v : Label → V) (entry : Store × V) : Label → V :=
  Function.update v entry.1.place entry.2

/-- The assignment can bring the values `v` to `v'`. -/
def Executes {V : Type} (work : List Store) (v v' : Label → V) : Prop :=
  ∃ (mid : Label → V) (values : List V), (∀ a y, known a = some y → mid a = v y) ∧
    List.Forall₂ (fun st w => ∀ y ∈ st.source.bind known, w = v y) work values ∧
    v' = (work.zip values).foldl put mid

def Respects {V : Type} (s : Partition Label) (v : Label → V) : Prop :=
  ∀ a b, s.samePart a b = true → v a = v b

/-- Values that agree with the classes before agree with the classes after. -/
def IsSound (work : List Store) (s t : Partition Label) : Prop :=
  ∀ (V : Type) (v v' : Label → V), Respects s v → Executes known work v v' → Respects t v'

variable {known} {V : Type} {work : List Store}

variable {a : Label}

variable {y : Label}

theorem eq_of_foldl {v mid : Label → V} {f : Label → Option Label} (start : ∀ a y, f a = some y → mid a = v y)
    {values : List V} (read : List.Forall₂ (fun st w => ∀ y ∈ st.source.bind known, w = v y) work values)
    (ha : work.foldl (learn known) f a = some y) : (work.zip values).foldl put mid a = v y := by
  induction read generalizing f mid with
  | nil => exact start a y ha
  | @cons st w rest values first _ ih =>
    refine ih (fun b z hb => ?_) ha
    by_cases here : b = st.place
    · subst here
      rw [learn,Function.update_self] at hb
      rw [put,Function.update_self]
      exact first z hb
    · rw [learn,Function.update_of_ne here] at hb
      rw [put,Function.update_of_ne here]
      exact start b z hb

theorem eq_of_executes {v v' : Label → V} (h : Executes known work v v') (ha : held known work a = some y) :
    v' a = v y := by
  obtain ⟨mid,values,start,read,rfl⟩ := h
  exact eq_of_foldl start read ha

theorem foldl_elim (v other : Label → V) (f : Label → Option Label) :
    (work.zip (work.map fun st => (st.source.bind known).elim (other st.place) v)).foldl put
      (fun a => (f a).elim (other a) v) = fun a => (work.foldl (learn known) f a).elim (other a) v := by
  induction work generalizing f with
  | nil => rfl
  | cons st _ ih =>
    rw [List.foldl_cons,← ih]
    rw [List.map_cons,List.zip_cons_cons,List.foldl_cons]
    congr 1
    funext a
    by_cases here : a = st.place
    · simp [put,learn,here]
    · simp [put,learn,here]

theorem executes_elim (v other : Label → V) : Executes known work v fun a => (held known work a).elim (other a) v := by
  refine ⟨fun a => (known a).elim (other a) v,_,?_,?_,(foldl_elim v other known).symm⟩
  · intro a y ha
    simp [ha]
  · rw [List.forall₂_map_right_iff,List.forall₂_same]
    intro st _ y hy
    rw [Option.mem_def.1 hy,Option.elim_some]

variable {s t : Partition Label}

theorem IsSound.eq_of_held (sound : IsSound known work s t) {b : Label} (same : t.samePart a b)
    (ha : held known work a = none) : b = a := by
  have values := sound Prop (fun _ => False) _ (fun _ _ _ => rfl) (executes_elim _ (· = a)) a b same
  cases hb : held known work b with
  | none => simpa [ha,hb] using values
  | some => simp [ha,hb] at values

theorem isSound_iff (proper : s.IsProper) (proper' : t.IsProper) : IsSound known work s t ↔ ∀ a b, t.samePart a b → a = b ∨
      ∃ y z, held known work a = some y ∧ held known work b = some z ∧ s.samePart y z := by
  constructor
  · intro sound a b same
    cases ha : held known work a with
    | none => exact .inl (sound.eq_of_held same ha).symm
    | some y =>
      cases hb : held known work b with
      | none => exact .inl (sound.eq_of_held (proper'.samePart_symm same) hb)
      | some z =>
        have respects : Respects s fun c => s.samePart c y = true := by
          intro c d pair
          exact propext ⟨proper.samePart_trans (proper.samePart_symm pair),proper.samePart_trans pair⟩
        have values := sound Prop _ _ respects (executes_elim _ fun _ => False) a b same
        simp only [ha,hb,Option.elim_some] at values
        have self : s.samePart y y := by simp [Partition.samePart]
        exact .inr ⟨y,z,rfl,rfl,proper.samePart_symm (values ▸ self)⟩
  · intro agree V v v' respects execution a b same
    obtain rfl | ⟨y,z,ha,hb,pair⟩ := agree a b same
    · rfl
    · rw [eq_of_executes execution ha,eq_of_executes execution hb]
      exact respects y z pair

end Execution

variable {work : List Store}

/-! ### Assignments from names only, and from no name -/

def ReadsFirst (work : List Store) : Prop :=
  work.Pairwise fun st later => later.source ≠ some st.place

theorem foldl_eq_origin (read : ∀ st ∈ work, st.source.isSome) (first : ReadsFirst work)
    {f : Label → Option Label} (start : ∀ st ∈ work, ∀ y, st.source = some y → f y = some y) (a : Label) :
    work.foldl (learn some) f a = f (origin work a) := by
  induction work generalizing f with
  | nil => rfl
  | cons st rest ih =>
    rw [List.forall_mem_cons] at read start
    obtain ⟨before,first⟩ := List.pairwise_cons.1 first
    obtain ⟨y,hy⟩ := Option.isSome_iff_exists.1 read.1
    rw [List.foldl_cons,ih read.2 first]
    · rw [origin,Store.origin,hy]
      by_cases here : origin rest a = st.place
      · simp [learn,here,hy,start.1 y hy]
      · simp [learn,here]
    · intro later mem z hz
      have ne : z ≠ st.place := fun eq => before later mem (eq ▸ hz)
      rw [learn,Function.update_of_ne ne]
      exact start.2 later mem z hz

theorem held_eq_origin (read : ∀ st ∈ work, st.source.isSome) (first : ReadsFirst work)
    (a : Label) : held some work a = some (origin work a) :=
  foldl_eq_origin read first (fun _ _ _ _ => rfl) a

theorem origin_eq_self (unread : ∀ st ∈ work, st.source = none) (a : Label) : origin work a = a := by
  induction work with
  | nil => rfl
  | cons _ _ ih =>
    rw [List.forall_mem_cons] at unread
    rw [origin,ih unread.2,Store.origin,unread.1]
    simp

theorem foldl_eq_none_or {known f : Label → Option Label} (unread : ∀ st ∈ work, st.source = none)
    (a : Label) : work.foldl (learn known) f a =
      if a ∈ work.map Store.place then none else f a := by
  induction work generalizing f with
  | nil => rfl
  | cons st _ ih =>
    rw [List.forall_mem_cons] at unread
    rw [List.foldl_cons,ih unread.2]
    by_cases here : a = st.place
    · simp [learn,unread.1,here]
    · simp [learn,here]

def Withstands (known : Label → Option Label) (s : Partition Label) : Prop :=
  ∀ a b, s.samePart a b = true → a = b ∨ ∃ y z, known a = some y ∧ known b = some z ∧ s.samePart y z = true

theorem isSound_iff_alone {known : Label → Option Label} (proper : s.IsProper)
    (proper' : t.IsProper) (classes : ∀ a b, t.samePart a b = s.samePart (origin work a) (origin work b))
    (withstands : Withstands known s) (unread : ∀ st ∈ work, st.source = none) :
    IsSound known work s t ↔ ∀ st ∈ work, ∀ b, s.samePart st.place b → b = st.place := by
  have held_eq (a : Label) : held known work a = if a ∈ work.map Store.place then none else known a :=
    foldl_eq_none_or unread a
  simp only [origin_eq_self unread] at classes
  constructor
  · intro sound st mem b same
    refine sound.eq_of_held (classes _ _ ▸ same) ?_
    rw [held_eq,if_pos (List.mem_map_of_mem mem)]
  · rw [isSound_iff proper proper']
    intro alone a b same
    rw [classes] at same
    rw [held_eq,held_eq]
    by_cases ha : a ∈ work.map Store.place
    · obtain ⟨st,mem,rfl⟩ := List.mem_map.1 ha
      exact .inl (alone st mem b same).symm
    · by_cases hb : b ∈ work.map Store.place
      · obtain ⟨st,mem,rfl⟩ := List.mem_map.1 hb
        exact .inl (alone st mem a (proper.samePart_symm same))
      · rw [if_neg ha,if_neg hb]
        exact withstands a b same

theorem withstands_kept {isImmutable : Label → Bool} {effects : Bool} (proper : s.IsProper) :
    Withstands (kept isImmutable effects) (if effects then s.separateAll isImmutable else s) := by
  cases effects with
  | false => exact fun a b same => .inr ⟨a,b,rfl,rfl,same⟩
  | true =>
    intro a b same
    rw [if_pos rfl] at same ⊢
    obtain eq | pair := (proper.separateAll isImmutable).samePart_iff_eq_or.1 same
    · exact .inl eq
    rw [Partition.together_separateAll] at pair
    obtain eq | ⟨ha,hb⟩ := pair.2
    · exact .inl eq
    · exact .inr ⟨a,b,by simp [kept,ha],by simp [kept,hb],same⟩

/-! ### The analysis of an assignment -/

theorem named?_withStates {before after : Table (Partition Label)} :
    ({ p with before, after } : Program).named? = p.named? := by
  have same (fuel : Nat) (n : Node) :
      ({ p with before, after } : Program).labelWithin fuel n = p.labelWithin fuel n := by
    induction fuel generalizing n with
    | zero => rfl
    | succ _ ih =>
      cases n <;> try rfl
      simp only [Program.labelWithin,ih]
      rfl
  funext n
  simp only [Program.named?,Program.label,same]

end Aliases

namespace Pass
open Aliases

variable {p q : Program}

variable {n : Node}

theorem runs_before {s : Partition Label} : Runs (before n) p s q ↔ p.before[n.id]? = some s ∧ p = q := by
  unfold before
  simp only [runs_bind,runs_get]
  constructor
  · rintro ⟨_,_,⟨rfl,rfl⟩,run⟩
    split at run
    next found =>
      obtain ⟨rfl,rfl⟩ := runs_pure.1 run
      exact ⟨found,rfl⟩
    next => exact absurd run runs_throw
  · rintro ⟨found,rfl⟩
    exact ⟨p,p,⟨rfl,rfl⟩,by simp [found]⟩

theorem runs_forgetBefore {parts : List Node} (run : Runs (forgetBefore n parts) p () q) :
    ∃ effects table, anySideEffects p parts = .ok effects ∧ q = { p with before := table } ∧
      table[n.id]? = (p.before[n.id]?).map fun s => if effects then forget p s else s := by
  unfold forgetBefore at run
  obtain ⟨effects,known,run⟩ := runs_ask_bind.1 run
  cases effects with
  | false =>
    obtain ⟨-,rfl⟩ := runs_pure.1 run
    exact ⟨false,p.before,known,rfl,by simp⟩
  | true =>
    simp only [if_true,runs_bind,runs_get,runs_before] at run
    obtain ⟨_,_,⟨rfl,rfl⟩,s,_,⟨found,rfl⟩,run⟩ := run
    unfold setBefore at run
    split at run
    next => simp at run
    next => exact ⟨true,_,known,(runs_modify.1 run).symm,by simp [found]⟩

theorem runs_findAliases_assign {i : Info} {c : Bool} {left right : Node} {op : String}
    (run : Runs (findAliases (.assign i c left right op)) p () q) :
    ∃ s effects t, p.before[i.id]? = some s ∧ anySideEffects p [left,right] = .ok effects ∧
      q.before[i.id]? = some (if effects then forget p s else s) ∧ q.after[i.id]? = some t ∧
      (stores p.named? left right).foldlM take (if effects then forget p s else s) = .ok t := by
  rw [findAliases] at run
  simp only [runs_bind,runs_before,runs_ask] at run
  obtain ⟨_,u,forgotten,known,_,⟨found,rfl⟩,t,_,⟨assigned,rfl⟩,run⟩ := run
  obtain ⟨effects,table,asked,rfl,changed⟩ := runs_forgetBefore forgotten
  cases runs_modify.1 run
  have work := foldlM_take_of_assign assigned
  rw [named?_withStates] at work
  obtain ⟨s,start,rfl⟩ := Option.map_eq_some_iff.1 (changed.symm.trans found)
  exact ⟨s,effects,t,start,asked,found,Std.TreeMap.getElem?_insert_self,work⟩

end Pass

open Aliases Pass

def exchange : String :=
  "contract C\x7bfunction f(uint x,uint y)public\x7b(x,y)=(y,x);\x7d\x7d"

def analysedAssignment? (text : String) : Option (Node × Program × Program) :=
  match (loadLinked text).run { Globals.base with settings := {} } with
  | (.ok (),p) =>
    match p.tree.preorder.find? fun n => n matches .assign .. with
    | some n@(.assign _ _ left _ _) =>
      let p := { p with before := p.before.insert n.id ((places p.named? left).foldl Partition.insert {}) }
      match (findAliases n).run p with
      | (.ok (),q) => some (n,p,q)
      | _ => none
    | _ => none
  | _ => none

theorem of_analysedAssignment? {text : String} {n : Node} {p q : Program} (h : analysedAssignment? text = some (n,p,q)) :
    ∃ i c left right op, n = .assign i c left right op ∧ Runs (findAliases n) p () q ∧
      p.before[i.id]? = some ((places p.named? left).foldl Partition.insert {}) := by
  unfold analysedAssignment? at h
  split at h
  next p₀ _ =>
    split at h
    next n' i c left right op _ =>
      dsimp only at h
      split at h
      next q' run =>
        cases h
        refine ⟨i,c,left,right,op,rfl,run,?_⟩
        refine Std.TreeMap.getElem?_insert_self.trans ?_
        exact congrArg (fun named? => some ((places named? left).foldl Partition.insert {})) named?_withStates.symm
      next => cases h
    next => cases h
  next => cases h

/-- Two owners that nothing was known about have changed places. -/
def exchanges (run : Node × Program × Program) : Bool :=
  match run.1 with
  | .assign i _ left right _ =>
    match places run.2.1.named? left with
    | [x,y] => x ≠ y && stores run.2.1.named? left right = [⟨x,some y⟩,⟨y,some x⟩] &&
      (run.2.2.before[i.id]?).any fun s => !s.samePart y x
    | _ => false
  | _ => false

end Confidential
