import Confidential.Proofs.CalledEffects
import Confidential.Proofs.LinkedSource

/-!
What functions do to the state, calls included.
-/

namespace Confidential

open List Node Pass

/-- The functions are made of nodes with numbers of their own, and nothing is known about effects. -/
structure Prepared (p : Program) : Prop where
  pos : 0 < p.next
  nodup : (p.routines.flatMap numbers).Nodup
  range : ∀ k ∈ p.routines.flatMap numbers, 0 < k ∧ k < p.next
  node : ∀ f ∈ p.routines, ∀ m ∈ f.subtrees, m.isLeaflet = false → p.node m.id = m
  silent : ∀ e k, p.accesses e k = []
  numbered : p.Numbered

namespace Program

def known (p : Program) : List Access :=
  (List.range p.next).filterMap fun k => (p.access (p.node k)).toOption

def Contains (p : Program) (m : Node) : Prop :=
  ∃ f ∈ p.routines, f.Contains m

def Examines (p : Program) (m : Node) : Prop :=
  ∃ f ∈ p.routines, f.Examines m

def Does (p : Program) (e : Effect) (d : Node) (a : Access) : Prop :=
  ∃ m, d.Contains m ∧ p.Examines m ∧ p.Performs e m a

/-- Inside of `n` the definition `d` is called: a function of a contract, or a variable in one of them. -/
def Calls (p : Program) (n d : Node) : Prop :=
  ∃ c callee, n.Contains c ∧ c.called? = some callee ∧ p.target callee = .ok d ∧ p.Contains d

def size (p : Program) : Nat :=
  ∑ k ∈ Finset.range p.next, ((p.accesses .modified k).length + (p.accesses .read k).length)

end Program

/-- What is recorded comes from nodes of the program, and each access is recorded once. -/
structure Bounded (start p : Program) : Prop where
  below : Below start (fun _ _ a => a ∈ start.known) p
  nodup : ∀ e k, (p.accesses e k).Nodup

section Termination

variable {start p p' : Program}

theorem Bounded.length_le (h : Bounded start p) (e : Effect) (k : Nat) : (p.accesses e k).length ≤ start.next := by
  have sub : p.accesses e k ⊆ start.known := fun a ha => h.below.mem e k a ha
  calc (p.accesses e k).length
    _ ≤ start.known.length := ((h.nodup e k).subperm sub).length_le
    _ ≤ (List.range start.next).length := length_filterMap_le ..
    _ = start.next := length_range

theorem Bounded.size_le (h : Bounded start p) : p.size ≤ 2 * start.next * start.next := by
  have next := h.below.only.next
  calc p.size
    _ ≤ ∑ _k ∈ Finset.range p.next, 2 * start.next := by
      refine Finset.sum_le_sum fun k _ => ?_
      have modified := h.length_le .modified k
      have read := h.length_le .read k
      omega
    _ = 2 * start.next * start.next := by
      rw [Finset.sum_const_nat fun _ _ => rfl,Finset.card_range,next,Nat.mul_comm]

theorem Grows.size_lt {k : Nat} (h : Grows p p') (lt : k < p.next) (gains : Gains k p p') : p.size < p'.size := by
  have le (e : Effect) (j : Nat) : (p.accesses e j).length ≤ (p'.accesses e j).length :=
    (h.prefix_accesses e j).length_le
  unfold Program.size
  rw [h.only.next]
  refine Finset.sum_lt_sum (fun j _ => Nat.add_le_add (le .modified j) (le .read j)) ⟨k,Finset.mem_range.2 lt,?_⟩
  obtain ⟨e,more⟩ := gains
  have modified := le .modified k
  have read := le .read k
  cases e <;> omega

theorem Bounded.round {b : Bool} (h : Bounded start p) (run : Runs effectsRound p b p') : Bounded start p' where
  below := by
    obtain ⟨bs,run,-⟩ := runs_effectsRound.1 run
    refine (Keeps.mapM fun f _ => below_indirect fun m _ _ => ⟨?_,?_⟩) p bs p' run h.below
    · exact fun _ _ _ _ ha => ha
    · exact fun _ _ _ _ _ _ ha _ => ha
  nodup e k := (grows_effectsRound p b p' run).nodup e k (h.nodup e k)

theorem Bounded.size_lt (h : Bounded start p) (range : ∀ f ∈ start.routines, ∀ m, f.Contains m → m.id < start.next)
    (run : Runs effectsRound p true p') : p.size < p'.size := by
  obtain ⟨f,hf,m,hm,gains⟩ := gains_effectsRound run
  refine (grows_effectsRound p true p' run).size_lt ?_ gains
  rw [h.below.only.next]
  exact range f (h.below.only.routines ▸ hf) m hm

theorem run_effectsRounds_succ (fuel : Nat) (p : Program) :
    (effectsRounds (fuel + 1)).run p = match effectsRound.run p with
      | (.ok true,q) => (effectsRounds fuel).run q
      | (.ok false,q) => (.ok (),q)
      | (.error e,q) => (.error e,q) := by
  rw [effectsRounds,run_bind]
  cases effectsRound.run p with
  | mk r =>
    cases r with
    | error => rfl
    | ok b => cases b <;> rfl

theorem run_effectsRounds_eq (h : Bounded start p) (range : ∀ f ∈ start.routines, ∀ m, f.Contains m → m.id < start.next)
    {fuel fuel' : Nat} (enough : 2 * start.next * start.next < p.size + fuel)
    (enough' : 2 * start.next * start.next < p.size + fuel') : (effectsRounds fuel).run p = (effectsRounds fuel').run p := by
  induction fuel generalizing p fuel' with
  | zero => exact absurd h.size_le (by omega)
  | succ _ ih =>
    cases fuel' with
    | zero => exact absurd h.size_le (by omega)
    | succ =>
      rw [run_effectsRounds_succ,run_effectsRounds_succ]
      split
      next q run =>
        have more := h.size_lt range run
        exact ih (h.round run) (by omega) (by omega)
      next => rfl
      next => rfl

theorem runs_effectsRounds (h : Bounded start p) (range : ∀ f ∈ start.routines, ∀ m, f.Contains m → m.id < start.next)
    {fuel : Nat} (enough : 2 * start.next * start.next < p.size + fuel) (run : Runs (effectsRounds fuel) p () p') :
    ∃ q, Grows p q ∧ Runs effectsRound q false p' := by
  induction fuel generalizing p with
  | zero => exact absurd h.size_le (by omega)
  | succ _ ih =>
    unfold Runs at run
    rw [run_effectsRounds_succ] at run
    split at run
    next q first =>
      have more := h.size_lt range first
      obtain ⟨r,grows,last⟩ := ih (h.round first) (by omega) run
      exact ⟨r,Trans.trans (grows_effectsRound p true q first) grows,last⟩
    next q first =>
      cases run
      exact ⟨p,refl p,first⟩
    next => cases run

end Termination

variable {n : Node} {p q : Program}

variable {m : Node}

theorem Program.Contains.trans (h : p.Contains n) (hm : n.Contains m) : p.Contains m := by
  obtain ⟨f,hf,hn⟩ := h
  exact ⟨f,hf,hn.trans hm⟩

theorem Program.Examines.contains (h : p.Examines m) : p.Contains m := by
  obtain ⟨f,hf,hm⟩ := h
  exact ⟨f,hf,hm.contains⟩

theorem Program.Numbered.node_eq (h : p.Numbered) {t : Node} (target : p.target n = .ok t)
    (known : t.isOmitted = false) : p.node t.id = t := by
  have found (k : Nat) (ht : p.node k = t) : p.node t.id = t := by
    rw [node_eq_getD] at ht
    cases present : p.nodes[k]? with
    | none =>
      rw [present] at ht
      subst ht
      cases known
    | some m =>
      rw [present,Option.getD_some] at ht
      subst ht
      rw [h k m present,node_eq_getD,present,Option.getD_some]
  unfold Program.target at target
  split at target
  next k _ => exact found k (Except.ok.inj target)
  next =>
    split at target
    · cases target
    · cases target
      cases known
    · split at target
      · cases target
        cases known
      · cases target

section Exact

variable {p q r : Program} (h : Prepared p)
include h

variable {m : Node}

variable {e : Effect} {a : Access} {c : Node}

theorem Prepared.node_eq (hm : p.Contains m) (pos : 0 < m.id) : p.node m.id = m := by
  obtain ⟨f,hf,hm⟩ := hm
  exact h.node f hf m hm.mem_subtrees (isLeaflet_of_id pos)

theorem Prepared.lt : ∀ f ∈ p.routines, ∀ m, f.Contains m → m.id < p.next := by
  intro f hf m hm
  obtain zero | pos := Nat.eq_zero_or_pos m.id
  · exact zero ▸ h.pos
  · have mem := number_mem hm.mem_subtrees (isLeaflet_of_id pos)
    exact (h.range _ (mem_flatMap.2 ⟨f,hf,mem⟩)).2

theorem Prepared.pos_of_contains (hm : p.Contains m) (solid : m.isLeaflet = false) : 0 < m.id := by
  obtain ⟨f,hf,hm⟩ := hm
  exact (h.range _ (mem_flatMap.2 ⟨f,hf,number_mem hm.mem_subtrees solid⟩)).1

theorem Prepared.untouched : Untouched p p.routines where
  nodup := h.nodup
  pos zero := absurd (h.range 0 zero).1 (Nat.lt_irrefl 0)
  silent k _ e := h.silent e k

theorem Prepared.mem_known (hm : p.Contains m) (done : p.Performs e m a) : a ∈ p.known := by
  obtain ⟨f,hf,hm⟩ := hm
  have known {t : Node} (ht : t ∈ m.subtrees) (ok : p.access t = .ok a) : a ∈ p.known := by
    have solid := isLeaflet_of_access ok
    have mem := mem_trans ht hm.mem_subtrees
    have number := mem_flatMap.2 ⟨f,hf,number_mem mem solid⟩
    refine mem_filterMap.2 ⟨t.id,mem_range.2 (h.range _ number).2,?_⟩
    rw [h.node f hf t mem solid,ok]
    rfl
  cases e with
  | read => exact known self_mem done.2.2.2
  | modified =>
    obtain ⟨-,ok⟩ | ⟨i,c,left,right,op,rfl,t,ht,ok⟩ := done
    · exact known self_mem ok
    · refine known (mem_subtrees.2 (.inr ⟨left,by simp [parts],?_⟩)) ok
      exact mem_of_assignee ht

/-- What the first pass records, as a family: what is done below a node. -/
theorem Prepared.bounded (examined : ExaminedAll p.routines p q) : Bounded p q := by
  have cases (e : Effect) (k : Nat) : q.accesses e k = [] ∨ ∃ f ∈ p.routines, ∃ m, f.Examines m ∧ m.id = k := by
    by_cases looked : ∃ f ∈ p.routines, ∃ m, f.Examines m ∧ m.id = k
    · exact .inr looked
    · left
      rw [examined.other k (fun f hf m hm same => looked ⟨f,hf,m,hm,same⟩) e,h.silent]
  refine ⟨⟨examined.only,fun e k a ha => ?_⟩,fun e k => ?_⟩
  · obtain void | ⟨f,hf,m,hm,rfl⟩ := cases e k
    · simp [void] at ha
    · obtain ⟨m',hm',done⟩ := (examined.mem f hf m hm e a).1 ha
      exact h.mem_known ⟨f,hf,(hm.trans hm').contains⟩ done
  · obtain void | ⟨f,hf,m,hm,rfl⟩ := cases e k
    · exact void ▸ nodup_nil
    · exact examined.nodup f hf m hm e

/-- The accesses to the state of the nodes in functions, by their numbers. -/
def Program.reached (p : Program) : Family :=
  fun e k a => p.isState a = true →
    ∃ d, p.Contains d ∧ 0 < d.id ∧ d.id = k ∧ ∃ d', Relation.ReflTransGen p.Calls d d' ∧ p.Does e d' a

omit h in
theorem Program.Does.of_part (opened : n.isParameter = false) (hc : c ∈ n.children) (done : p.Does e c a) : p.Does e n a := by
  obtain ⟨m,hm,rest⟩ := done
  exact ⟨m,.child opened hc hm,rest⟩

omit h in
theorem Program.Calls.of_part {d : Node} (opened : n.isParameter = false) (hc : c ∈ n.children)
    (calls : p.Calls c d) : p.Calls n d := by
  obtain ⟨m,callee,hm,rest⟩ := calls
  exact ⟨m,callee,.child opened hc hm,rest⟩

theorem Prepared.closed_reached (hm : p.Contains m) (opened : m.isParameter = false) : Closed p p.reached m := by
  refine ⟨fun c hc e a reached state => ?_,fun callee called t target e a reached state _ => ?_⟩
  · obtain ⟨d,hd,pos,same,d',calls,done⟩ := reached state
    have part : p.Contains c := hm.trans (.child opened hc .self)
    have eq : d = c := by
      rw [← h.node_eq hd pos,same,h.node_eq part (same ▸ pos)]
    subst eq
    refine ⟨m,hm,h.pos_of_contains hm (isLeaflet_of_child hc),rfl,?_⟩
    obtain rfl | ⟨x,first,rest⟩ := calls.cases_head
    · exact ⟨m,.refl,done.of_part opened hc⟩
    · exact ⟨d',.head (first.of_part opened hc) rest,done⟩
  · obtain ⟨d,hd,pos,same,d',calls,done⟩ := reached state
    have eq : d = t := by
      rw [← h.node_eq hd pos,same,h.numbered.node_eq target (isOmitted_of_id (same ▸ pos))]
    subst eq
    have solid : m.isLeaflet = false := by
      cases m <;> first | rfl | cases called
    exact ⟨m,hm,h.pos_of_contains hm solid,rfl,d',.head ⟨m,callee,.self,called,target,hd⟩ calls,done⟩

theorem Prepared.below_reached (examined : ExaminedAll p.routines p q) : Below p p.reached q := by
  refine ⟨examined.only,fun e k a ha state => ?_⟩
  by_cases looked : ∃ f ∈ p.routines, ∃ m, f.Examines m ∧ m.id = k
  · obtain ⟨f,hf,m,hm,rfl⟩ := looked
    obtain ⟨m',hm',done⟩ := (examined.mem f hf m hm e a).1 ha
    have inside : p.Contains m := ⟨f,hf,hm.contains⟩
    refine ⟨m,inside,h.pos_of_contains inside (examined.solid f hf m hm),rfl,m,.refl,m',hm'.contains,?_,done⟩
    exact ⟨f,hf,hm.trans hm'⟩
  · rw [examined.other k (fun f hf m hm same => looked ⟨f,hf,m,hm,same⟩) e,h.silent] at ha
    cases ha

end Exact

variable {F : Family}

theorem below_effectsRounds {start : Program}
    (closed : ∀ m, start.Contains m → m.isParameter = false → Closed start F m) (fuel : Nat) :
    Keeps (Preserves (Below start F)) (effectsRounds fuel) := by
  induction fuel with
  | zero => exact .pure
  | succ _ ih =>
    refine .bind (fun p b p' run below => ?_) fun changed => ?_
    · obtain ⟨bs,run,-⟩ := runs_effectsRound.1 run
      refine (Keeps.mapM fun f hf => below_indirect fun m hm => ?_) p bs p' run below
      exact closed m ⟨f,below.only.routines ▸ hf,hm⟩
    · split
      · exact ih
      · exact .pure

theorem runs_findEffects : Runs findEffects p () q ↔
    ∃ r, Runs (p.routines.forM directEffects) p () r ∧ Runs (effectsRounds (roundsBound r)) r () q := by
  unfold findEffects
  simp only [runs_bind,runs_get]
  constructor
  · rintro ⟨_,_,⟨rfl,rfl⟩,_,r,first,_,_,⟨rfl,rfl⟩,rest⟩
    exact ⟨r,first,rest⟩
  · rintro ⟨r,first,rest⟩
    exact ⟨p,p,⟨rfl,rfl⟩,(),r,first,r,r,⟨rfl,rfl⟩,rest⟩

/-- What is recorded in `q` is closed, and everything in it is done by functions of `p`. -/
structure Analysed (p q : Program) : Prop where
  only : EffectsOnly p q
  own : ∀ e m a, p.Examines m → p.Performs e m a → a ∈ q.accesses e m.id
  settled : ∀ m, p.Contains m → m.isParameter = false → Settled p q.recorded m
  sound : Below p p.reached q

theorem Settled.congr (h : Settled p F n) (only : EffectsOnly q p) : Settled q F n where
  part := h.part
  call callee called t target e a ha state :=
    h.call callee called t (by rw [only.target]; exact target) e a ha (by rw [only.isState]; exact state)
  solid := h.solid
  walkable := h.walkable
  callable callee called := by
    obtain ⟨t,⟨target,known,solid⟩,plain⟩ := h.callable callee called
    rw [only.target] at target
    rw [only.isState,only.isMapping] at plain
    exact ⟨t,⟨target,known,solid⟩,plain⟩

theorem Prepared.analysed (h : Prepared p) (run : Runs findEffects p () q) : Analysed p q := by
  obtain ⟨r,direct,rounds⟩ := runs_findEffects.1 run
  have examined := examinedAll_of_runs h.untouched direct
  have enough : 2 * p.next * p.next < r.size + roundsBound r := by
    unfold roundsBound
    rw [examined.only.next]
    omega
  obtain ⟨t,grows,last⟩ := runs_effectsRounds (h.bounded examined) h.lt enough rounds
  obtain ⟨idle,settled⟩ := settled_effectsRound last
  have only : EffectsOnly p t := Trans.trans examined.only grows.only
  have same : q.recorded = t.recorded := by
    funext e k a
    rw [Program.recorded,idle.accesses,Program.recorded]
  refine ⟨Trans.trans only idle.only,fun e m a ⟨f,hf,hm⟩ done => ?_,fun m ⟨f,hf,hm⟩ opened => ?_,?_⟩
  · rw [idle.accesses]
    exact (grows.prefix_accesses e m.id).subset ((examined.mem f hf m hm e a).2 ⟨m,.self,done⟩)
  · rw [same]
    exact (settled f (only.routines ▸ hf) m hm opened).congr only
  · exact below_effectsRounds (fun m => h.closed_reached) _ r () q rounds (h.below_reached examined)

section Results

variable {p q : Program} (h : Analysed p q)
include h

variable {a : Access} {e : Effect}

variable {f : Node}

theorem Analysed.outwards {m : Node} (hn : p.Contains n) (hm : n.Contains m)
    (ha : a ∈ q.accesses e m.id) : a ∈ q.accesses e n.id := by
  induction hm with
  | self => exact ha
  | child opened hc _ ih => exact (h.settled _ hn opened).part _ hc e a (ih (hn.trans (.child opened hc .self)) ha)

theorem Analysed.complete {d : Node} (hn : p.Contains n)
    (calls : Relation.ReflTransGen p.Calls n d) (done : p.Does e d a) (state : p.isState a) :
    a ∈ q.accesses e n.id := by
  induction calls using Relation.ReflTransGen.head_induction_on with
  | refl =>
    obtain ⟨m,hm,examined,performed⟩ := done
    exact h.outwards hn hm (h.own e m a examined performed)
  | head first _ ih =>
    obtain ⟨c,callee,hc,called,target,hd⟩ := first
    have settled := h.settled c (hn.trans hc) (isParameter_of_called called)
    exact h.outwards hn hc (settled.call callee called _ target e a (ih hd) state)

theorem Analysed.mem_accesses_iff (prepared : Prepared p) (hf : f ∈ p.routines)
    (state : p.isState a) : a ∈ q.accesses e f.id ↔ ∃ d, Relation.ReflTransGen p.Calls f d ∧ p.Does e d a := by
  have self : p.Contains f := ⟨f,hf,.self⟩
  constructor
  · intro ha
    obtain ⟨d,hd,pos,same,rest⟩ := h.sound.mem e f.id a ha state
    have eq : d = f := by
      rw [← prepared.node_eq hd pos,same,prepared.node_eq self (same ▸ pos)]
    exact eq ▸ rest
  · rintro ⟨d,calls,done⟩
    exact h.complete self calls done state

theorem Analysed.mem_accesses_mapping (prepared : Prepared p) (hf : f ∈ p.routines)
    (state : p.isState a) (mapping : p.isMapping a) : a ∈ q.accesses e f.id ↔ p.Does e f a := by
  rw [h.mem_accesses_iff prepared hf state]
  constructor
  · rintro ⟨d,calls,done⟩
    obtain rfl | ⟨x,⟨c,callee,hc,called,target,hx⟩,rest⟩ := calls.cases_head
    · exact done
    · -- The last round has looked at what is recorded for the called function.
      have inside : p.Contains c := ⟨f,hf,hc⟩
      obtain ⟨t,callable,plain⟩ := (h.settled c inside (isParameter_of_called called)).callable callee called
      cases callable.target.symm.trans target
      rw [plain e a (h.complete hx rest done state) state] at mapping
      cases mapping
  · exact fun done => ⟨f,.refl,done⟩

end Results

namespace Node

def isRoutine (n : Node) : Bool :=
  n.isFunctionOf .constructor || n.isFunctionOf .function

theorem routines_perm (n : Node) : n.routines.Perm (n.units.filter isRoutine) := by
  unfold routines constructors functions isRoutine
  induction n.units with
  | nil => exact .nil
  | cons u _ ih =>
    by_cases first : u.isFunctionOf .constructor
    · have other : u.isFunctionOf .function = false := by
        cases u <;> first | rfl | skip
        simp_all [isFunctionOf]
      simp only [filter_cons,first,other,Bool.true_or,if_true,Bool.false_eq_true,if_false,cons_append]
      exact ih.cons u
    · rw [Bool.not_eq_true] at first
      by_cases second : u.isFunctionOf .function
      · simp only [filter_cons,first,second,Bool.or_true,if_true,Bool.false_eq_true,if_false]
        exact perm_middle.trans (ih.cons u)
      · simp only [filter_cons,first,second,Bool.or_self,Bool.false_eq_true,if_false]
        exact ih

theorem units_sublist (n : Node) : n.units.Sublist n.parts := by
  cases n with
  | contract _ a =>
    simp only [units,parts,cons_append,append_assoc]
    exact (sublist_append_left ..).cons a
  | source =>
    simp only [units,parts,append_assoc]
    exact sublist_append_left ..
  | _ => exact nil_sublist _

variable {n : Node}

variable {f : Node}

theorem unit_of_routine (h : f ∈ n.routines) : f ∈ n.units :=
  mem_of_mem_filter (n.routines_perm.mem_iff.1 h)

theorem isFunction_of_mem (h : f ∈ n.routines) : f.isFunction := by
  have kind := (mem_filter.1 (n.routines_perm.mem_iff.1 h)).2
  cases f <;> first | rfl | cases kind

theorem numbers_filter_sublist (n : Node) : ((n.units.filter isRoutine).flatMap numbers).Sublist n.numbers := by
  have inner : ((n.units.filter isRoutine).flatMap numbers).Sublist (n.parts.flatMap numbers) :=
    flatMap_sublist (filter_sublist.trans n.units_sublist) fun _ _ => Sublist.refl _
  rw [numbers_eq]
  exact inner.trans (sublist_append_right ..)

theorem nodup_routines (h : n.numbers.Nodup) : (n.routines.flatMap numbers).Nodup :=
  (n.routines_perm.flatMap_right numbers).nodup_iff.2 (n.numbers_filter_sublist.nodup h)

theorem routines_subset (n : Node) : n.routines.flatMap numbers ⊆ n.numbers := fun _ hk =>
  n.numbers_filter_sublist.subset ((n.routines_perm.flatMap_right numbers).mem_iff.1 hk)

end Node

namespace LinkedSource

variable {p : Program} {first : Nat} {root : Node} (h : LinkedSource p first root)
include h

theorem solid : root.isLeaflet = false :=
  isLeaflet_of (isSource_iff.2 h.source) fun _ => rfl

theorem tree_eq : p.tree = root := by
  rw [Program.tree,h.root_eq]
  exact h.holds.node_eq self_mem h.solid

theorem contracts_sublist : p.contracts.Sublist root.parts := by
  rw [Program.contracts,h.tree_eq]
  split
  next i units head single =>
    rw [show (Node.source i units head single).parts = units ++ head ++ [single] from rfl,append_assoc]
    exact filter_sublist.trans (sublist_append_left ..)
  next => exact nil_sublist _

theorem mem_of_routine {f : Node} (hf : f ∈ p.routines) : f ∈ root.subtrees := by
  obtain ⟨c,hc,hf⟩ := mem_flatMap.1 hf
  have self : root ∈ root.subtrees := self_mem
  refine mem_of_part (mem_of_part self (h.contracts_sublist.subset hc)) ?_
  exact c.units_sublist.subset (unit_of_routine hf)

theorem prepared : Prepared p := by
  have nodup : (p.contracts.flatMap numbers).Nodup := by
    have all := h.holds.nodup
    rw [numbers_eq] at all
    exact (flatMap_sublist h.contracts_sublist fun _ _ => Sublist.refl _).nodup (nodup_append.1 all).2.1
  have inside {f : Node} (hf : f ∈ p.routines) {m : Node} (hm : m ∈ f.subtrees) : m ∈ root.subtrees :=
    mem_trans hm (h.mem_of_routine hf)
  have range := h.holds.range root self_mem h.solid
  refine ⟨by omega,?_,fun k hk => ?_,fun f hf m hm solid => ?_,fun e k => ?_,h.numbered⟩
  · rw [Program.routines,flatMap_assoc]
    rw [nodup_flatMap] at nodup ⊢
    refine ⟨fun c hc => nodup_routines (nodup.1 c hc),nodup.2.imp fun apart k hk hk' => ?_⟩
    exact apart (routines_subset _ hk) (routines_subset _ hk')
  · obtain ⟨f,hf,hk⟩ := mem_flatMap.1 hk
    obtain ⟨m,hm,rfl⟩ := mem_map.1 hk
    obtain ⟨hm,solid⟩ := mem_filter.1 hm
    have inner := h.holds.range m (inside hf hm) (by simpa using solid)
    have pos := h.holds.pos
    omega
  · exact h.holds.node_eq (inside hf hm) solid
  · cases e <;> simp [Program.accesses,Program.table,h.modified,h.read]

end LinkedSource
end Confidential
