import Confidential.Proofs.MappingAccesses

/-!
What the calls in contracts refer to.
-/

namespace Confidential

open List Node Pass
open Globals (base)

namespace Node

variable {k : Nat} {n : Node} {P : Node → Prop}

variable {name : String} {f type : Node}

theorem isFunction_of_kind {kind : FunctionKind} (h : n.isFunctionOf kind) : n.isFunction := by
  cases n <;> first | rfl | cases h

theorem isFunction_numbered (n : Node) (k : Nat) : (n.numbered k).1.isFunction = n.isFunction := by
  rw [numbered_eq]
  split
  · rfl
  · cases n <;> rfl

theorem isParameter_numbered (n : Node) (k : Nat) : (n.numbered k).1.isParameter = n.isParameter := by
  rw [numbered_eq]
  split
  · rfl
  · cases n with
    | declaration _ kind => cases kind <;> rfl
    | _ => rfl

/-- Calls that do not stand for an operator, and reveals. -/
def isActive : Node → Bool
  | .call _ callee _ _ => !(callee matches .builtin ..)
  | .reveal .. => true
  | _ => false

def Idle (d : Node) : Prop :=
  ∀ m, d.Contains m → m.isActive = false

theorem isActive_of_parts (h : n.isParameter ∨ n.parts = []) : n.isActive = false := by
  cases n with
  | call | reveal => simp [parts,isParameter] at h
  | _ => rfl

theorem idle_of_parts {d : Node} (function : d.isFunction)
    (each : ∀ c ∈ d.parts, c.isParameter ∨ c.parts = []) : d.Idle := by
  intro m hm
  cases hm with
  | self => cases d <;> first | rfl | cases function
  | child _ hc inner =>
    have plain := each _ (part_of_child hc)
    cases inner with
    | self => exact isActive_of_parts plain
    | child _ hc' =>
      have part := part_of_child hc'
      simp_all

theorem parts_arrayFunction (made : arrayFunction name type = .ok f) :
    f.isFunction ∧ f.id = 0 ∧ ∀ c ∈ f.parts, c.isParameter ∨ c.parts = [] := by
  unfold arrayFunction at made
  repeat' split at made
  all_goals cases made
  all_goals exact ⟨rfl,rfl,forall_mem_cons.2 ⟨.inr rfl,forall_mem_cons.2 ⟨.inl rfl,forall_mem_cons.2 ⟨.inr rfl,by simp⟩⟩⟩⟩

theorem idle_arrayFunction (made : arrayFunction name type = .ok f) (k : Nat) :
    (f.numbered k).1.Idle := by
  obtain ⟨function,-,plain⟩ := parts_arrayFunction made
  refine idle_of_parts ((isFunction_numbered f k).trans function) (forall_parts_numbered plain fun c hc j _ _ => ?_)
  obtain parameter | leaf := plain c hc
  · exact .inl ((isParameter_numbered c j).trans parameter)
  · have void := forall_parts_numbered (P := fun _ => False) (n := c) (k := j) (by simp [leaf]) (by simp [leaf])
    exact .inr (eq_nil_iff_forall_not_mem.2 void)

theorem exists_part_of_mem {m : Node} (h : m ∈ n.subtrees) : m = n ∨ ∃ x ∈ n.subtrees, m ∈ x.parts := by
  induction n with
  | step n ih =>
    obtain rfl | ⟨c,hc,hm⟩ := mem_subtrees.1 h
    · exact .inl rfl
    · obtain rfl | ⟨x,hx,hm⟩ := ih c hc hm
      · exact .inr ⟨n,self_mem,hc⟩
      · exact .inr ⟨x,mem_subtrees.2 (.inr ⟨c,hc,hx⟩),hm⟩

theorem mem_of_id {root c : Node} (nodup : root.numbers.Nodup) (hc : c ∈ root.subtrees)
    (hn : n ∈ root.subtrees) (solid : n.isLeaflet = false) (number : n.id ∈ c.numbers) : n ∈ c.subtrees := by
  obtain ⟨m,hm,same⟩ := mem_map.1 number
  obtain ⟨hm,solid'⟩ := mem_filter.1 hm
  cases eq_of_id nodup (mem_trans hm hc) hn (by simpa using solid') solid same
  exact hm

end Node

def Accessible (root : Node) (k : Nat) : Prop :=
  k ∈ root.numbers → k = root.id ∨ ∃ c ∈ root.units, c.isContract = true ∧ k ∈ c.numbers

namespace Holds

variable {p : Program} {first k : Nat} {root n m : Node} {around : List Node} (h : Holds p first root)
include h

theorem range_of_number (hk : k ∈ root.numbers) : first ≤ k ∧ k < p.next := by
  obtain ⟨m,hm,rfl⟩ := mem_map.1 hk
  obtain ⟨hm,solid⟩ := mem_filter.1 hm
  exact h.range m hm (by simpa using solid)

theorem accessible_of_lt (lt : k < first) : Accessible root k := by
  intro hk
  have := (h.range_of_number hk).1
  omega

theorem accessible_of_le (le : p.next ≤ k) : Accessible root k := by
  intro hk
  have := (h.range_of_number hk).2
  omega

theorem only_accessible (hn : n ∈ root.subtrees) (other : n ≠ root) (acc : Accessible root n.id) :
    n.Only (Accessible root) := by
  intro m hm hk
  have pos := h.pos.trans_le (h.range_of_number hk).1
  have inside := mem_trans hm hn
  have self : root ∈ root.subtrees := self_mem
  cases solid : n.isLeaflet with
  | true =>
    rw [subtrees_eq,parts_eq_nil solid,flatMap_nil,mem_singleton] at hm
    rw [hm,id_eq_zero solid] at pos
    omega
  | false =>
    have number := number_mem hn solid
    obtain same | ⟨c,hc,contract,number⟩ := acc number
    · refine absurd (eq_of_id h.nodup hn self solid (isLeaflet_of_id ?_) same) other
      exact same ▸ h.pos.trans_le (h.range n hn solid).1
    · have outer := mem_of_part self (root.units_sublist.subset hc)
      have inner := mem_of_id h.nodup outer hn solid number
      exact .inr ⟨c,hc,contract,number_mem (mem_trans hm inner) (isLeaflet_of_id pos)⟩

theorem accessible_parent (path : Path root (n :: around) m) (solid : m.isLeaflet = false)
    (acc : Accessible root m.id) : Accessible root n.id := by
  intro hk
  have self : root ∈ root.subtrees := self_mem
  cases path with
  | child outer hc =>
    have part := part_of_child hc
    have inside := outer.mem_subtrees
    have below := mem_of_part inside part
    obtain same | ⟨c,hu,contract,number⟩ := acc (number_mem below solid)
    · have pos := h.pos.trans_le (h.range m below solid).1
      cases eq_of_id h.nodup below self solid (isLeaflet_of_id (same ▸ pos)) same
      have small := sizeOf_lt_part part
      have large := sizeOf_le_of_mem inside
      omega
    · have unit := root.units_sublist.subset hu
      have outer := mem_of_part self unit
      obtain rfl | ⟨x,hx,hm⟩ := exists_part_of_mem (mem_of_id h.nodup outer below solid number)
      · exact .inl (congrArg Node.id (eq_of_part h.nodup inside self part unit solid))
      · cases eq_of_part h.nodup inside (mem_trans hx outer) part hm solid
        exact .inr ⟨c,hu,contract,number_mem hx (isLeaflet_of_child hc)⟩

end Holds

namespace Names

variable {t u : Names} {x : String} {k : Nat} {e : String × Nat}

variable {es : List (String × Nat)}

theorem mem_put (h : e ∈ t.put x k) : e = (x,k) ∨ e ∈ t := by
  unfold put at h
  split at h
  · obtain ⟨e',he,rfl⟩ := mem_map.1 h
    split
    · exact .inl rfl
    · exact .inr he
  · obtain he | he := mem_append.1 h
    · exact .inr he
    · exact .inl (mem_singleton.1 he)

theorem mem_update (h : e ∈ t.update u) : e ∈ t ∨ e ∈ u := by
  unfold update at h
  induction u generalizing t with
  | nil => exact .inl h
  | cons _ _ ih =>
    obtain he | he := ih h
    · obtain rfl | he := mem_put he
      · exact .inr mem_cons_self
      · exact .inl he
    · exact .inr (mem_cons_of_mem _ he)

theorem mem_ofList (h : e ∈ ofList es) : e ∈ es := by
  obtain void | he := mem_update (show e ∈ update [] es from h)
  · cases void
  · exact he

theorem mem_foldlM {f : Names → String × Nat → Outcome Names} (step : ∀ t e t', f t e = .ok t' → ∀ e' ∈ t', e' ∈ t ∨ e' = e)
    (run : es.foldlM f t = .ok u) (h : e ∈ u) : e ∈ t ∨ e ∈ es := by
  induction es generalizing t with
  | nil =>
    cases run
    exact .inl h
  | cons e' _ ih =>
    rw [foldlM_cons] at run
    obtain ⟨t',first,rest⟩ := bind_ok.1 run
    obtain he | he := ih rest
    · obtain he | rfl := step t e' t' first e he
      · exact .inl he
      · exact .inr mem_cons_self
    · exact .inr (mem_cons_of_mem _ he)

theorem mem_merge {tables : List Names} (merged : merge tables = .ok t) (h : e ∈ t) : ∃ u ∈ tables, e ∈ u := by
  have found : e ∈ ([] : Names) ∨ e ∈ tables.flatten := by
    refine mem_foldlM (fun t e t' step e' he => ?_) merged h
    split at step
    · split at step
      · cases step
        exact .inl he
      · cases step
    · cases step
      exact (mem_append.1 he).imp_right mem_singleton.1
  obtain void | found := found
  · cases void
  · exact mem_flatten.1 found

end Names

section Filling

variable {Q : Nat → Prop} {bound : Nat} {p p' : Program}

/-- The tables at nodes with numbers in `Q` lead to numbers in `Q`. -/
structure TablesOnly (Q : Nat → Prop) (bound : Nat) (p : Program) : Prop where
  le : bound ≤ p.next
  entries : ∀ (k : Nat) (t : Names), Q k → p.links.names[k]? = some t → ∀ e ∈ t, Q e.2 ∧ 0 < e.2 ∧ e.2 < p.next

def Node.Inner (Q : Nat → Prop) (bound : Nat) (n : Node) : Prop :=
  ∀ m ∈ n.subtrees, m.isLeaflet = false → Q m.id ∧ 0 < m.id ∧ m.id < bound

variable {t : Names} {n : Node}

theorem Node.Inner.id {m : Node} (h : n.Inner Q bound) (zero : Q 0) (hm : m ∈ n.subtrees) : Q m.id := by
  cases solid : m.isLeaflet with
  | true => exact id_eq_zero solid ▸ zero
  | false => exact (h m hm solid).1

theorem Node.Inner.declaredNames {ns : List Node} (h : n.Inner Q bound)
    (inside : ∀ d ∈ ns, d ∈ n.subtrees) (declared : declaredNames ns = .ok t) :
    ∀ e ∈ t, Q e.2 ∧ 0 < e.2 ∧ e.2 < bound := by
  intro e he
  obtain ⟨es,rfl,all⟩ := declaredNames_eq_ok declared
  obtain ⟨d,hd,i,name,same⟩ := forall₂_exists_of_mem all.flip (Names.mem_ofList he)
  rw [← same]
  exact h (.identifier i e.1) (mem_of_part (inside d hd) (ownName_mem_parts name)) rfl

theorem TablesOnly.withNames {k : Nat} (h : TablesOnly Q bound p)
    (entries : Q k → ∀ e ∈ t, Q e.2 ∧ 0 < e.2 ∧ e.2 < p.next) : TablesOnly Q bound (p.withNames k t) := by
  refine ⟨h.le,fun j t' hj found => ?_⟩
  rw [Program.getElem?_withNames] at found
  split at found
  next same =>
    cases found
    exact entries (same ▸ hj)
  next => exact h.entries j t' hj found

theorem tablesOnly_collectNames (zero : Q 0) (h : TablesOnly Q bound p) (inner : n.Inner Q bound)
    (run : Runs (collectNames n) p t p') :
    p'.next = p.next ∧ TablesOnly Q bound p' ∧ ∀ e ∈ t, Q e.2 ∧ 0 < e.2 ∧ e.2 < p.next := by
  obtain ⟨tables,names,merged,rfl⟩ := runs_collectNames run
  refine ⟨?_,?_,fun e he => ?_⟩
  · generalize collected n = cs
    clear names merged run
    induction cs generalizing p with
    | nil => rfl
    | cons c _ ih => exact ih (p := p.withNames c.id []) (h.withNames fun _ => by simp)
  · generalize collected n = cs
    clear names merged run
    induction cs generalizing p with
    | nil => exact h
    | cons c _ ih => exact ih (p := p.withNames c.id []) (h.withNames fun _ => by simp)
  · obtain ⟨u,hu,he⟩ := Names.mem_merge merged he
    obtain ⟨c,hc,found⟩ := forall₂_exists_of_mem names.flip hu
    have part := part_of_child (mem_filter.1 hc).1
    have inside := mem_of_part self_mem part
    unfold Program.names at found
    split at found
    next t' known =>
      cases found
      exact h.entries c.id _ (inner.id zero inside) known e he
    next =>
      split at found
      · cases found
      · cases found
        cases he

theorem tablesOnly_fillOne (zero : Q 0) (pos : 0 < bound) (new : ∀ k, bound ≤ k → Q k)
    (h : TablesOnly Q bound p) (inner : n.Inner Q bound) (run : Runs (fillOne n) p () p') : TablesOnly Q bound p' := by
  have self : n ∈ n.subtrees := self_mem
  have inside {ds : List Node} (sub : ∀ d ∈ ds, d ∈ n.parts) : ∀ d ∈ ds, d ∈ n.subtrees := fun d hd =>
    mem_of_part self (sub d hd)
  have below {t : Names} (entries : ∀ e ∈ t, Q e.2 ∧ 0 < e.2 ∧ e.2 < bound) :
      ∀ e ∈ t, Q e.2 ∧ 0 < e.2 ∧ e.2 < p.next := fun e he =>
    (entries e he).imp_right fun lt => lt.imp_right fun lt => lt.trans_le h.le
  have plain {ds : List Node} (sub : ∀ d ∈ ds, d ∈ n.subtrees) {u : Unit}
      (run : Runs (ofOutcome (Pass.declaredNames ds) >>= fun t => setNames n t) p u p') : TablesOnly Q bound p' := by
    obtain ⟨t,declared,set⟩ := runs_ofOutcome_bind.1 run
    rw [← runs_setNames.1 set]
    exact h.withNames fun _ => below (inner.declaredNames sub declared)
  have collect {u : Unit} (run : Runs (collectNames n >>= fun t => setNames n t) p u p') : TablesOnly Q bound p' := by
    obtain ⟨t,q,found,set⟩ := runs_bind.1 run
    obtain ⟨next,only,entries⟩ := tablesOnly_collectNames zero h inner found
    rw [← runs_setNames.1 set]
    exact only.withNames fun _ => next ▸ entries
  have same {u : Unit} (run : Runs (pure ()) p u p') : TablesOnly Q bound p' := by
    obtain ⟨-,rfl⟩ := runs_pure.1 run
    exact h
  cases n with
  | library => exact plain (inside fun d hd => by simp [parts,mem_of_mem_filter hd]) run
  | contract i a units head tail =>
    obtain ⟨t,q,named,set⟩ := runs_bind.1 run
    obtain ⟨rfl,states,defined,hs,hd,merged⟩ := runs_contractNames named
    rw [← runs_setNames.1 set]
    refine h.withNames fun _ e he => ?_
    have sub (f : Node → Bool) : ∀ d ∈ units.filter f, d ∈ (Node.contract i a units head tail).parts := fun d hd => by
      simp [parts,mem_of_mem_filter hd]
    obtain ⟨u,hu,he⟩ := Names.mem_merge merged he
    simp only [mem_cons,not_mem_nil,or_false] at hu
    obtain rfl | rfl := hu
    · exact below (inner.declaredNames (inside (sub _)) hs) e he
    · exact below (inner.declaredNames (inside (sub _)) hd) e he
  | function i a parameters marks results body kind | struct i a members | enum i a values => exact plain (inside fun d hd => by simp [parts,hd]) run
  | modifier =>
    obtain ⟨t,declared,run⟩ := runs_ofOutcome_bind.1 run
    obtain ⟨placeholder,q,known,set⟩ := runs_bind.1 run
    have unnumbered : (Node.identifier {} "_").Unnumbered := (rawAs_leaf (r := .label)).1.unnumbered
    have registered := registered_of_runs unnumbered known
    have solid : placeholder.isLeaflet = false := by
      rw [← (runs_register.1 known).1,isLeaflet_numbered]
      rfl
    have range := registered.mem_numbers self_mem solid
    have only : TablesOnly Q bound q := by
      refine ⟨h.le.trans registered.le,fun k t hk found e he => ?_⟩
      rw [registered.links_eq] at found
      have entry := h.entries k t hk found e he
      exact ⟨entry.1,entry.2.1,entry.2.2.trans_le registered.le⟩
    rw [← runs_setNames.1 set]
    refine only.withNames fun _ e he => ?_
    obtain rfl | he := Names.mem_put he
    · have := h.le
      exact ⟨new _ (by omega),by omega,range.2⟩
    · have entry := below (inner.declaredNames (inside fun d hd => by simp [parts,hd]) declared) e he
      exact ⟨entry.1,entry.2.1,entry.2.2.trans_le registered.le⟩
  | declaration _ kind =>
    cases kind with
    | plain | parameter => exact same run
    | _ => exact plain (fun d hd => mem_singleton.1 hd ▸ self) run
  | mapping _ _ label =>
    rw [← runs_setNames.1 run]
    refine h.withNames fun _ e he => ?_
    cases label with
    | identifier j name =>
      have entry := inner (.identifier j name) (mem_of_part self (by simp [parts])) rfl
      rw [mem_singleton.1 he]
      exact ⟨entry.1,entry.2.1,entry.2.2.trans_le h.le⟩
    | _ => cases he
  | statements | forLoop | variableStatement | expressionStatement | require | assign | variablesStatement =>
    exact collect run
  | general _ c =>
    cases c with
    | simpleStatement => exact collect run
    | _ => exact same run
  | _ => exact same run

theorem tablesOnly_fillBelow (zero : Q 0) (pos : 0 < bound) (new : ∀ k, bound ≤ k → Q k)
    (sorted : ∀ m ∈ n.subtrees, Q m.id → m.isSource ∨ m.Inner Q bound) (h : TablesOnly Q bound p)
    (run : Runs (fillBelow n) p () p') : TablesOnly Q bound p' := by
  induction n generalizing p p' with
  | step n ih =>
    obtain ⟨-,q,first,last⟩ := runs_fillBelow run
    have children : TablesOnly Q bound q := by
      refine Keeps.forM (R := Preserves (TablesOnly Q bound)) (fun c hc p u p' run h => ?_) p () q first h
      have part := part_of_child hc
      exact ih c part (fun m hm => sorted m (mem_subtrees.2 (.inr ⟨c,part,hm⟩))) h run
    by_cases own : Q n.id
    · obtain source | inner := sorted n self_mem own
      · cases n with
        | source =>
          obtain ⟨-,rfl⟩ := runs_pure.1 last
          exact children
        | _ => cases source
      · exact tablesOnly_fillOne zero pos new children inner last
    · have fills := fillsOne_fillOne last
      refine ⟨children.le.trans fills.fills.next,fun k t hk found e he => ?_⟩
      obtain same | ⟨cleared,-⟩ := fills.cleared k fun same => own (same ▸ hk)
      · have entry := children.entries k t hk (same ▸ found) e he
        exact ⟨entry.1,entry.2.1,entry.2.2.trans_le fills.fills.next⟩
      · rw [cleared] at found
        cases found
        cases he

theorem tablesOnly_fillDefinitions {ks : List Nat} (zero : Q 0) (pos : 0 < bound) (new : ∀ k, bound ≤ k → Q k)
    (known : ∀ k ∈ ks, k < p.next ∧ (p.node k).Inner Q bound) (h : TablesOnly Q bound p)
    (run : Runs (ks.forM fun k => do fillBelow ((← get).node k)) p () p') :
    TablesOnly Q bound p' ∧ p'.globalNames = p.globalNames := by
  induction ks generalizing p with
  | nil => exact runs_forM_nil.1 run ▸ ⟨h,rfl⟩
  | cons _ _ ih =>
    rw [forall_mem_cons] at known
    obtain ⟨q,step,rest⟩ := runs_forM_cons.1 run
    replace step := runs_get_bind.1 step
    have fills := fills_fillBelow step
    have only : TablesOnly Q bound q := by
      refine tablesOnly_fillBelow zero pos new (fun m hm _ => .inr fun j hj => ?_) h step
      exact known.1.2 j (mem_trans hj hm)
    rw [← fills.globalNames]
    refine ih (fun j hj => ?_) only rest
    rw [fills.extend.node (known.2 j hj).1]
    exact ⟨(known.2 j hj).1.trans_le fills.next,(known.2 j hj).2⟩

theorem tablesOnly_fillNames {root : Node} (zero : Q 0) (pos : 0 < bound) (new : ∀ k, bound ≤ k → Q k)
    (source : root.isSource)
    (sorted : ∀ m ∈ root.subtrees, Q m.id → m.isSource ∨ m.Inner Q bound)
    (contracts : ∀ c ∈ root.units, c.isContract → c.Inner Q bound)
    (known : ∀ k ∈ p.globalDefinitions, k < p.next ∧ (p.node k).Inner Q bound)
    (builtins : ∀ e ∈ p.globalNames, Q e.2 ∧ 0 < e.2 ∧ e.2 < bound) (h : TablesOnly Q bound p)
    (run : Runs (fillNames root) p () p') : TablesOnly Q bound p' := by
  obtain ⟨_,q,below,run⟩ := runs_bind.1 run
  rw [if_pos source] at run
  obtain ⟨own,declared,run⟩ := runs_ofOutcome_bind.1 run
  obtain ⟨t,r,globals,run⟩ := runs_bind.1 run
  have first := tablesOnly_fillBelow zero pos new sorted h below
  have filled := fills_fillBelow below
  replace globals := runs_get_bind.1 globals
  obtain ⟨_,r,definitions,globals⟩ := runs_bind.1 globals
  replace globals := runs_get_bind.1 globals
  obtain ⟨rfl,rfl⟩ := runs_pure.1 globals
  rw [filled.globalDefinitions] at definitions
  obtain ⟨second,names⟩ := tablesOnly_fillDefinitions zero pos new (fun k hk => by
    rw [filled.extend.node (known k hk).1]
    exact ⟨(known k hk).1.trans_le filled.next,(known k hk).2⟩) first definitions
  rw [← runs_setNames.1 run]
  refine second.withNames fun _ e he => ?_
  suffices entry : Q e.2 ∧ 0 < e.2 ∧ e.2 < bound from
    ⟨entry.1,entry.2.1,entry.2.2.trans_le second.le⟩
  obtain he | he := Names.mem_update he
  · obtain ⟨es,rfl,all⟩ := declaredNames_eq_ok declared
    obtain ⟨c,hc,i,name,same⟩ := forall₂_exists_of_mem all.flip (Names.mem_ofList he)
    obtain ⟨hc,contract⟩ := mem_filter.1 hc
    rw [← same]
    refine contracts c hc contract (.identifier i e.1) (mem_of_part ?_ (ownName_mem_parts name)) rfl
    exact self_mem
  · rw [names,filled.globalNames] at he
    exact builtins e (Names.mem_ofList he)

end Filling

/-- What a call in a contract may lead to: a function of a contract, or one that is idle. -/
def Callable (r : Program) (d : Node) : Prop :=
  d.isFunctionOf .function = true → d ∈ r.routines ∨ d.Idle

/-- What is known when linking begins: whatever `Q` has leads to what `Q` has, by names and outwards. -/
structure Enclosed (Q : Nat → Prop) (r : Program) : Prop where
  zero : Q 0
  new : ∀ k, r.next ≤ k → Q k
  fresh : r.Fresh
  numbered : r.Numbered
  types : r.types = {}
  nameless : Callable r (r.node 0)
  rooted : r.root < r.next
  source : (r.node r.root).isSource = true
  names : ∀ (k : Nat) (t : Names), Q k → r.links.names[k]? = some t → ∀ e ∈ t, Q e.2 ∧ 0 < e.2 ∧ e.2 < r.next
  parents : ∀ k d : Nat, Q k → 0 < k → k < r.next → r.links.parents[k]? = some d →
    Q d ∧ 0 < d ∧ d < r.next ∧ Callable r (r.node d)
  nodes : ∀ k, Q k → k < r.next → k ≠ r.root → (r.node k).Only Q
  length : Q r.arrayLength ∧ r.arrayLength < r.next ∧ Callable r (r.node r.arrayLength)

structure Leads (Q : Nat → Prop) (r p : Program) (k : Nat) : Prop where
  lt : k < p.next
  own : Q k
  only : k = p.root ∨ (p.node k).Only Q
  callable : Callable r (p.node k)

/-- The tree has been linked in part, and the names with numbers in `Q` lead where they may. -/
structure Leading (Q : Nat → Prop) (r p : Program) : Prop where
  kept : Retains (fun _ => True) r p
  fresh : p.Fresh
  targets : ∀ k t : Nat, Q k → p.links.targets[k]? = some t → Leads Q r p t

section Leading

variable {Q : Nat → Prop} {r p p' : Program} {k : Nat} (closed : Enclosed Q r)
include closed

theorem Enclosed.id_of_node (h : Leading Q r p) (hk : Q k) : Q (p.node k).id := by
  rw [Program.node_eq_getD]
  cases known : p.nodes[k]? with
  | none => exact closed.zero
  | some n => exact (h.kept.numbered closed.numbered k n known).symm ▸ hk

theorem Enclosed.leads (h : Leading Q r p) (own : Q k) (lt : k < r.next) (callable : Callable r (r.node k)) :
    Leads Q r p k := by
  have node := h.kept.toExtends.node lt
  refine ⟨lt.trans_le h.kept.le,own,?_,node ▸ callable⟩
  by_cases root : k = p.root
  · exact .inl root
  · exact .inr (node ▸ closed.nodes k own lt (h.kept.root ▸ root))

theorem Enclosed.leads_zero (h : Leading Q r p) : Leads Q r p 0 :=
  closed.leads h closed.zero closed.fresh.pos closed.nameless

variable {n t : Node} {name : String}

variable {d type : Node} {around path : List Node}

theorem Enclosed.leads_of_lookup (h : Leading Q r p) {t : Names} {x : String} {d : Nat} (own : Q n.id)
    (names : p.names n = .ok t) (found : t.lookup x = some k) (parent : p.links.parents[k]? = some d) :
    Q d ∧ 0 < d ∧ d < r.next ∧ Callable r (r.node d) := by
  have mem := Names.mem_of_lookup found
  unfold Program.names at names
  split at names
  next t' known =>
    cases names
    rw [h.kept.names] at known
    obtain ⟨own,pos,lt⟩ := closed.names n.id t own known _ mem
    exact closed.parents k d own pos lt (h.kept.parents k pos lt ▸ parent)
  next =>
    split at names
    · cases names
    · cases names
      cases mem

theorem Enclosed.runs_memberOf (h : Leading Q r p) (own : Q n.id)
    (run : Runs (memberOf n name) p k p') : p' = p ∧ Leads Q r p k := by
  obtain ⟨t,names,run⟩ := runs_ask_bind.1 run
  split at run
  · exact absurd run runs_throw
  next j found =>
    replace run := runs_get_bind.1 run
    split at run
    next d parent =>
      obtain ⟨rfl,rfl⟩ := runs_pure.1 run
      obtain ⟨own,-,lt,callable⟩ := closed.leads_of_lookup h own names found parent
      exact ⟨rfl,closed.leads h own lt callable⟩
    next =>
      obtain ⟨rfl,rfl⟩ := runs_pure.1 run
      exact ⟨rfl,closed.leads_zero h⟩

theorem Enclosed.chain (h : Leading Q r p) (fuel : Nat)
    (outwards : ∀ j : Nat, p.links.parents[k]? = some j → Q j ∧ 0 < j ∧ j < r.next) :
    ∀ m ∈ p.chain fuel k, Q m.id := by
  induction fuel generalizing k with
  | zero => simp [Program.chain]
  | succ _ ih =>
    rw [Program.chain]
    split
    next j parent =>
      obtain ⟨own,pos,lt⟩ := outwards j parent
      refine forall_mem_cons.2 ⟨closed.id_of_node h own,ih fun d found => ?_⟩
      rw [h.kept.parents j pos lt] at found
      have outer := closed.parents j d own pos lt found
      exact ⟨outer.1,outer.2.1,outer.2.2.1⟩
    next => simp

theorem Enclosed.nextDeclaration (h : Leading Q r p) {rest : List Node} {outer : Node}
    (own : ∀ m ∈ around, Q m.id) (found : p.nextDeclaration n name around = .ok (some (outer,rest,d))) :
    Leads Q r p d.id ∧ ∀ m ∈ rest, Q m.id := by
  induction around with
  | nil => cases found
  | cons _ _ ih =>
    rw [forall_mem_cons] at own
    rw [Program.nextDeclaration] at found
    obtain ⟨t,names,found⟩ := bind_ok.1 found
    split at found
    · exact ih own.2 found
    next k listed =>
      dsimp only at found
      split at found
      next j parent =>
        obtain ⟨own',-,lt,callable⟩ := closed.leads_of_lookup h own.1 names listed parent
        have leads : Leads Q r p (p.node j).id := by
          rw [Program.node_eq_getD]
          cases known : p.nodes[j]? with
          | none => exact closed.leads_zero h
          | some n => exact (h.kept.numbered closed.numbered j n known).symm ▸ closed.leads h own' lt callable
        rw [pure_bind] at found
        split at found
        · split at found
          · exact ih own.2 found
          · cases found
            exact ⟨leads,own.2⟩
        · cases found
          exact ⟨leads,own.2⟩
      next => cases found

theorem Enclosed.declarationIn (h : Leading Q r p) (fuel : Nat)
    (own : ∀ m ∈ around, Q m.id) (found : p.declarationIn name fuel n around = .ok (some d)) : Leads Q r p d.id := by
  induction fuel generalizing n around with
  | zero => cases found
  | succ _ ih =>
    rw [Program.declarationIn] at found
    obtain ⟨next,searched,found⟩ := bind_ok.1 found
    split at found
    · cases found
    next outer rest decl =>
      obtain ⟨leads,rest⟩ := closed.nextDeclaration h own searched
      split at found
      · obtain ⟨before,-,found⟩ := bind_ok.1 found
        split at found
        · exact ih rest found
        · cases found
          exact leads
      · cases found
        exact leads

theorem Enclosed.runs_path (h : Leading Q r p) {first : Nat} (start : Leads Q r p first)
    (run : Runs (path.foldlM (fun (k : Nat) part => do
      let name ← ofOutcome (match part.identifierText? with
        | some t => .ok t
        | none => .error .absent)
      if k = 0 then throw .absent
      memberOf ((← get).node k) name) first) p k p') : p' = p ∧ Leads Q r p k := by
  induction path generalizing first with
  | nil =>
    obtain ⟨rfl,rfl⟩ := runs_pure.1 run
    exact ⟨rfl,start⟩
  | cons _ _ ih =>
    rw [foldlM_cons] at run
    obtain ⟨j,q,step,rest⟩ := runs_bind.1 run
    obtain ⟨name,-,step⟩ := runs_ofOutcome_bind.1 step
    dsimp only at step
    split at step
    · exact absurd step runs_throw_bind
    · replace step := runs_get_bind.1 step
      obtain ⟨rfl,leads⟩ := closed.runs_memberOf h (closed.id_of_node h start.own) step
      exact ih leads rest

theorem Enclosed.runs_typeTarget? (h : Leading Q r p)
    (own : ∀ m ∈ p.ancestors n, Q m.id) (run : Runs (typeTarget? n path) p (some k) p') : p' = p ∧ Leads Q r p k := by
  unfold typeTarget? at run
  split at run
  · exact absurd run runs_throw
  · obtain ⟨name,-,run⟩ := runs_ofOutcome_bind.1 run
    replace run := runs_get_bind.1 run
    obtain ⟨found,searched,run⟩ := runs_ofOutcome_bind.1 run
    match found with
    | none => cases (runs_pure.1 run).1
    | some (outer,rest,decl) =>
      obtain ⟨j,q,walked,run⟩ := runs_bind.1 run
      obtain ⟨same,rfl⟩ := runs_pure.1 run
      cases same
      exact closed.runs_path h (closed.nextDeclaration h own searched).1 walked

omit closed in
theorem Leads.mono (h : Leads Q r p k) (ext : Extends p p') (root : p'.root = p.root) : Leads Q r p' k := by
  have node := ext.node h.lt
  exact ⟨h.lt.trans_le ext.le,h.own,by rw [root,node]; exact h.only,node ▸ h.callable⟩

omit closed in
theorem Leading.setTarget (h : Leading Q r p) (leads : Q n.id → Leads Q r p k)
    (run : Runs (setTarget n k) p () p') : Leading Q r p' := by
  have kept : Retains (fun _ => True) p p' := Retains.setTarget trivial _ _ _ run
  have fresh := fresh_setTarget _ _ _ run h.fresh
  obtain rfl := runs_modify.1 run
  refine ⟨Trans.trans h.kept kept,fresh,fun j t own found => ?_⟩
  change (p.links.targets.insert n.id k)[j]? = some t at found
  rw [Std.TreeMap.getElem?_insert] at found
  split at found
  next same =>
    cases found
    exact (leads (Std.compare_eq_iff_eq.1 same ▸ own)).mono kept.toExtends kept.root
  next => exact (h.targets j t own found).mono kept.toExtends kept.root

omit closed in
theorem Leading.register (h : Leading Q r p) (under : n.Under p.next) (run : Runs (register n) p t p') :
    Leading Q r p' := by
  have kept : Retains (fun _ => True) p p' := Retains.register _ _ _ run
  refine ⟨Trans.trans h.kept kept,h.fresh.register under run,fun k t own found => ?_⟩
  have same : p'.links.targets = p.links.targets := by
    rw [← (Prod.mk.inj run).2]
  exact (h.targets k t own (same ▸ found)).mono kept.toExtends kept.root

theorem Enclosed.leads_registered (h : Leading Q r p) (under : n.Under p.next) (solid : n.isLeaflet = false)
    (unnumbered : n.id = 0) (only : n.Only Q) (callable : ∀ k, Callable r (n.numbered k).1)
    (run : Runs (register n) p t p') : Leads Q r p' t.id := by
  obtain ⟨lt,node⟩ := Program.Fresh.root_registered under solid unnumbered run
  have new (k : Nat) (hk : p.next ≤ k) : Q k := closed.new k (h.kept.le.trans hk)
  have id : t.id = p.next := by
    rw [← Except.ok.inj (Prod.mk.inj run).1]
    exact id_numbered solid unnumbered
  refine ⟨lt,new _ (Nat.le_of_eq id.symm),.inr ?_,node ▸ callable p.next⟩
  rw [node]
  exact only_numbered only fun k hk _ => new k hk

omit closed in
theorem Leading.place (h : Leading Q r p) {t m : Nat} (new : r.next ≤ t) :
    Leading Q r { p with links := { p.links with parents := p.links.parents.insert t m } } where
  kept := { h.kept with
    parents := fun k pos lt => by
      change (p.links.parents.insert t m)[k]? = _
      rw [Std.TreeMap.getElem?_insert,if_neg,h.kept.parents k pos lt]
      rw [Std.compare_eq_iff_eq]
      omega
    toQuiet := { h.kept.toQuiet with } }
  fresh := h.fresh.of_eq rfl rfl
  targets k t own found :=
    have leads := h.targets k t own found
    ⟨leads.lt,leads.own,leads.only,leads.callable⟩

theorem Enclosed.ancestors (h : Leading Q r p) (own : Q n.id) (pos : 0 < n.id) (lt : n.id < r.next) :
    ∀ m ∈ p.ancestors n, Q m.id := by
  refine closed.chain h p.next fun j parent => ?_
  rw [h.kept.parents n.id pos lt] at parent
  have outer := closed.parents n.id j own pos lt parent
  exact ⟨outer.1,outer.2.1,outer.2.2.1⟩

omit closed in
theorem Leading.target (h : Leading Q r p) (own : Q n.id) (target : p.target n = .ok t) :
    t = .omitted ∨ ∃ k, t = p.node k ∧ Leads Q r p k := by
  unfold Program.target at target
  split at target
  next k found =>
    cases target
    exact .inr ⟨k,rfl,h.targets n.id k own found⟩
  · split at target
    · cases target
    · exact .inl (Except.ok.inj target).symm
    · split at target
      · exact .inl (Except.ok.inj target).symm
      · cases target

theorem Enclosed.linkMember (h : Leading Q r p) (n : Node) (name : String) (found : Option Nat)
    (own : ∀ k, found = some k → Q k) (run : Runs (match found with
      | some k => do setTarget n (← memberOf ((← get).node k) name)
      | none => pure ()) p () p') : Leading Q r p' := by
  cases found with
  | none =>
    obtain ⟨-,rfl⟩ := runs_pure.1 run
    exact h
  | some k =>
    replace run := runs_get_bind.1 run
    obtain ⟨j,q,member,set⟩ := runs_bind.1 run
    obtain ⟨rfl,leads⟩ := closed.runs_memberOf h (closed.id_of_node h (own k rfl)) member
    exact h.setTarget (fun _ => leads) set

theorem Enclosed.linkMemberOfType (h : Leading Q r p) (own : Q n.id) (pos : 0 < n.id)
    (lt : n.id < r.next) (only : type.Only Q) (under : type.Under p.next)
    (run : Runs (linkMemberOfType n type name) p () p') : Leading Q r p' := by
  unfold Pass.linkMemberOfType at run
  split at run
  · split at run
    · replace run := runs_get_bind.1 run
      rw [h.kept.length] at run
      exact h.setTarget (fun _ => closed.leads h closed.length.1 closed.length.2.1 closed.length.2.2) run
    · split at run
      · obtain ⟨f,made,run⟩ := runs_ofOutcome_bind.1 run
        obtain ⟨t,q,known,run⟩ := runs_bind.1 run
        obtain ⟨function,unnumbered,-⟩ := parts_arrayFunction made
        have solid := isLeaflet_of function fun _ => rfl
        have under := only_arrayFunction (Q := (· < p.next)) h.fresh.pos under made
        refine (h.register under known).setTarget (fun _ => ?_) run
        exact closed.leads_registered h under solid unnumbered (only_arrayFunction closed.zero only made)
          (fun k _ => .inr (idle_arrayFunction made k)) known
      · exact absurd run runs_throw
  next i kind path =>
    obtain ⟨known,target,run⟩ := runs_ask_bind.1 run
    dsimp only at run
    split at run
    next linked =>
      rw [pure_bind] at run
      refine closed.linkMember h n name (some known.id) (fun k same => ?_) run
      cases same
      obtain rfl | ⟨k,rfl,leads⟩ := h.target (only_iff.1 only).1 target
      · cases linked
      · exact closed.id_of_node h leads.own
    next =>
      obtain ⟨piece,read,run⟩ := runs_ofOutcome_bind.1 run
      split at run
      next i kind path =>
        obtain ⟨_,-,read⟩ := bind_ok.1 read
        have unnumbered := (Source.yields_piece _ _ read).unnumbered
        obtain ⟨t,q,known,run⟩ := runs_bind.1 run
        obtain ⟨_,q',placed,run⟩ := runs_bind.1 run
        have registered := h.register (unnumbered.under h.fresh.pos) known
        have id : t.id = p.next := by
          rw [← Except.ok.inj (Prod.mk.inj known).1]
          exact id_numbered rfl (unnumbered _ self_mem)
        have new : r.next ≤ t.id := id ▸ h.kept.le
        obtain rfl := runs_modify.1 placed
        have leading := registered.place (m := n.id) new
        obtain ⟨found,q'',searched,run⟩ := runs_bind.1 run
        obtain rfl := keeps_typeTarget? (R := Eq) _ _ _ searched
        refine closed.linkMember leading n name found (fun k same => ?_) run
        cases same
        refine (closed.runs_typeTarget? leading ?_ searched).2.own
        refine closed.chain leading _ fun j parent => ?_
        change (q.links.parents.insert t.id n.id)[t.id]? = some j at parent
        rw [Std.TreeMap.getElem?_insert_self] at parent
        cases parent
        exact ⟨own,pos,lt⟩
      next =>
        exact absurd run runs_throw_bind
  · exact absurd run runs_throw

theorem Enclosed.runs_typeNameOf (h : Leading Q r p) (own : Q n.id) (target : p.target n = .ok t)
    (run : Runs (typeNameOf t) p type p') : p = p' ∧ type.Only Q ∧ type.Under p.next := by
  have types : p.types = {} := h.kept.types.trans closed.types
  obtain ⟨under,rfl⟩ := under_typeNameOf h.fresh types (h.fresh.target target) run
  refine ⟨rfl,?_,under⟩
  obtain ⟨a,known,run⟩ := runs_ask_bind.1 run
  have only : t.Only Q := by
    obtain rfl | ⟨k,rfl,leads⟩ := h.target own target
    · exact only_omitted closed.zero
    · refine leads.only.resolve_left fun root => ?_
      -- A source has no type.
      have source : (p.node k).isSource := by
        rw [root,h.kept.root,h.kept.toExtends.node closed.rooted]
        exact closed.source
      cases form : p.node k with
      | source =>
        rw [form] at known
        simp [Program.typeOf,types,isExpression,isTupleOrLocation,isLocation,isLiteral] at known
      | _ =>
        rw [form] at source
        cases source
  have inside := Program.only_typeOf closed.zero types only known
  split at run
  · obtain ⟨rfl,-⟩ := runs_pure.1 run
    exact inside.part (by simp [parts])
  · exact absurd run runs_throw

theorem Enclosed.declareElement (h : Leading Q r p) {element : Node} (only : element.Only Q)
    (under : element.Under p.next) (run : Runs (do
      let target ← register (.declaration {} .variable [] element (.identifier {} "") none)
      setTarget n target.id) p () p') : Leading Q r p' := by
  obtain ⟨t,q,known,set⟩ := runs_bind.1 run
  have whole {P : Nat → Prop} (zero : P 0) (only : element.Only P) :
      (Node.declaration {} .variable [] element (.identifier {} "") none).Only P := by
    have label : (Node.identifier {} "").Only P := only_iff.2 ⟨zero,by simp [parts]⟩
    exact only_iff.2 ⟨zero,by simp [parts,only,label]⟩
  have under : (Node.declaration {} .variable [] element (.identifier {} "") none).Under p.next :=
    whole (P := (· < p.next)) h.fresh.pos under
  refine (h.register under known).setTarget (fun _ => ?_) set
  refine closed.leads_registered h under rfl rfl (whole closed.zero only) (fun k function => ?_) known
  rw [numbered_eq] at function
  cases function

theorem Enclosed.linkOne (h : Leading Q r p) (range : n.isLeaflet = false → 0 < n.id ∧ n.id < r.next)
    (only : n.Only Q) (under : n.Under p.next) (run : Runs (linkOne n) p () p') : Leading Q r p' := by
  have own := (only_iff.1 only).1
  have types : p.types = {} := h.kept.types.trans closed.types
  have around (solid : n.isLeaflet = false) := closed.ancestors h own (range solid).1 (range solid).2
  unfold Pass.linkOne at run
  split at run
  · split at run
    · obtain ⟨-,rfl⟩ := runs_pure.1 run
      exact h
    · obtain ⟨d,q,found,set⟩ := runs_bind.1 run
      replace found := runs_get_bind.1 found
      obtain ⟨decl,searched,found⟩ := runs_ofOutcome_bind.1 found
      match decl with
      | some decl =>
        obtain ⟨rfl,rfl⟩ := runs_pure.1 found
        exact h.setTarget (fun _ => closed.declarationIn h _ (around rfl) searched) set
      | none =>
        obtain ⟨_,_,-,thrown⟩ := runs_bind.1 found
        exact absurd thrown runs_throw
  · obtain ⟨found,q,searched,run⟩ := runs_bind.1 run
    obtain rfl := keeps_typeTarget? (R := Eq) _ _ _ searched
    match found with
    | some k => exact h.setTarget (fun _ => (closed.runs_typeTarget? h (around rfl) searched).2) run
    | none =>
      obtain ⟨-,rfl⟩ := runs_pure.1 run
      exact h
  next i base part =>
    obtain ⟨name,-,run⟩ := runs_ofOutcome_bind.1 run
    obtain ⟨t,target,run⟩ := runs_ask_bind.1 run
    have inner : Q base.id := (only_iff.1 (only.part (by simp [parts]))).1
    split at run
    · obtain ⟨k,q,member,set⟩ := runs_bind.1 run
      have own : Q t.id := by
        obtain rfl | ⟨k,rfl,leads⟩ := h.target inner target
        · exact closed.zero
        · exact closed.id_of_node h leads.own
      obtain ⟨rfl,leads⟩ := closed.runs_memberOf h own member
      exact h.setTarget (fun _ => leads) set
    · obtain ⟨type,q,named,run⟩ := runs_bind.1 run
      obtain ⟨rfl,inside,below⟩ := closed.runs_typeNameOf h inner target named
      exact closed.linkMemberOfType h own (range rfl).1 (range rfl).2 inside below run
  next i base key =>
    obtain ⟨own,known,run⟩ := runs_ask_bind.1 run
    have base_only := only.part (show base ∈ (Node.index i base key).parts by simp [parts])
    have inside := Program.only_typeOf closed.zero types base_only known
    have below : own.Under p.next := h.fresh.typeOf types (under.part (by simp [parts])) known
    dsimp only at run
    split at run
    on_goal 1 =>
      have outer := inside.part (mem_cons_self : _ ∈ parts (.annotated ..))
      have lower := below.part (mem_cons_self : _ ∈ parts (.annotated ..))
      rw [pure_bind] at run
    on_goal 2 =>
      obtain ⟨t,target,run⟩ := runs_ask_bind.1 run
      obtain ⟨type,_,named,run⟩ := runs_bind.1 run
      obtain ⟨rfl,outer,lower⟩ := closed.runs_typeNameOf h (only_iff.1 base_only).1 target named
    all_goals
      split at run
      · obtain ⟨-,run⟩ := runs_guard.1 run
        rw [pure_bind] at run
        have value := outer.part (mem_cons_self : _ ∈ parts (.arrayType ..))
        have small := lower.part (mem_cons_self : _ ∈ parts (.arrayType ..))
        refine closed.declareElement h ?_ ?_ run
        · split
          · exact only_publicType closed.zero value
          · exact only_iff.2 ⟨closed.zero,by simp [parts,inside,value]⟩
        · split
          · exact under_publicType h.fresh.pos small
          · exact under_iff.2 ⟨h.fresh.pos,by simp [parts,below,small]⟩
      · rw [pure_bind] at run
        exact closed.declareElement h (outer.part (by simp [parts])) (lower.part (by simp [parts])) run
      · exact absurd run runs_throw_bind
  · obtain ⟨-,rfl⟩ := runs_pure.1 run
    exact h

theorem Enclosed.linkNames (h : Leading Q r p)
    (range : ∀ m ∈ n.subtrees, m.isLeaflet = false → 0 < m.id ∧ m.id < r.next)
    (sorted : ∀ m ∈ n.subtrees, Q m.id → m.isSource ∨ m.Only Q)
    (run : Runs (linkNames n) p () p') : Leading Q r p' := by
  induction n generalizing p p' with
  | step n ih =>
    rw [Retains.linkNames_eq] at run
    obtain ⟨-,run⟩ := runs_guard.1 run
    obtain ⟨_,q,first,last⟩ := runs_bind.1 run
    have self : n ∈ n.subtrees := self_mem
    have children : Leading Q r q := by
      refine Keeps.forM (R := Preserves (Leading Q r)) (fun c hc p u p' run h => ?_) p () q first h
      have part := part_of_child hc
      have inside {m : Node} (hm : m ∈ c.subtrees) : m ∈ n.subtrees := mem_subtrees.2 (.inr ⟨c,part,hm⟩)
      exact ih c part h (fun m hm => range m (inside hm)) (fun m hm => sorted m (inside hm)) run
    have under : n.Under q.next := fun m hm => by
      cases solid : m.isLeaflet with
      | true => exact id_eq_zero solid ▸ children.fresh.pos
      | false => exact (range m hm solid).2.trans_le children.kept.le
    by_cases own : Q n.id
    · obtain source | only := sorted n self own
      · cases n with
        | source =>
          obtain ⟨-,rfl⟩ := runs_pure.1 last
          exact children
        | _ => cases source
      · exact closed.linkOne children (range n self) only under last
    · have kept : Retains (fun k => n.id = k) q p' := Retains.linkOne (fun _ => rfl) q () p' last
      have all : Retains (fun _ => True) q p' := { kept with targets := fun _ no => absurd trivial no }
      have types : q.types = {} := children.kept.types.trans closed.types
      refine ⟨Trans.trans children.kept all,(fresh_linkOne children.fresh types under last).1,fun k t hk found => ?_⟩
      rw [kept.targets k fun same => own (same ▸ hk)] at found
      exact (children.targets k t hk found).mono kept.toExtends kept.root

end Leading

/-- Filling tables changes nothing but tables, and makes identifiers known. -/
structure Tabulates (p p' : Program) : Prop where
  le : p.next ≤ p'.next
  parents : p'.links.parents = p.links.parents
  targets : p'.links.targets = p.links.targets
  root : p'.root = p.root
  length : p'.arrayLength = p.arrayLength
  functions : p'.links.functions = p.links.functions
  findings : p'.findings = p.findings
  nodes : ∀ k, k < p.next → p'.nodes[k]? = p.nodes[k]?
  new : ∀ (k : Nat) (n : Node), p'.nodes[k]? = some n → p.nodes[k]? = some n ∨ n.isIdentifier = true

namespace Tabulates

instance : Std.Refl Tabulates :=
  ⟨fun _ => ⟨le_rfl,rfl,rfl,rfl,rfl,rfl,rfl,fun _ _ => rfl,fun _ _ => .inl⟩⟩

instance : IsTrans Program Tabulates where
  trans _ _ _ h h' := {
    le := h.le.trans h'.le
    parents := h'.parents.trans h.parents
    targets := h'.targets.trans h.targets
    root := h'.root.trans h.root
    length := h'.length.trans h.length
    functions := h'.functions.trans h.functions
    findings := h'.findings.trans h.findings
    nodes := fun k hk => (h'.nodes k (hk.trans_le h.le)).trans (h.nodes k hk)
    new := fun k n hn => (h'.new k n hn).elim (h.new k n) .inr }

theorem fillNames (n : Node) : Keeps Tabulates (fillNames n) := by
  refine keeps_fillNames (.modify fun p => ⟨le_rfl,rfl,rfl,rfl,rfl,rfl,rfl,fun _ _ => rfl,fun _ _ => .inl⟩) ?_ n
  intro p m p' run
  have unnumbered : (Node.identifier {} "_").Unnumbered := (rawAs_leaf (r := .label)).1.unnumbered
  have registered := registered_of_runs unnumbered run
  have form : m.isIdentifier ∧ m.parts = [] := by
    rw [← Except.ok.inj (Prod.mk.inj run).1,numbered_eq]
    exact ⟨rfl,rfl⟩
  have links := registered.links_eq
  refine ⟨registered.le,by rw [links],by rw [links],?_,?_,by rw [links],?_,
    fun k hk => registered.getElem?_nodes_of_lt hk,fun k n hn => ?_⟩
  · rw [registered.eq]
  · rw [registered.eq]
  · rw [registered.eq]
    rfl
  · rw [registered.nodes_eq] at hn
    obtain old | ⟨mem,-⟩ := mem_withNodes hn
    · exact .inl old
    · rw [subtrees_eq,form.2,flatMap_nil,mem_singleton] at mem
      exact .inr (mem ▸ form.1)

end Tabulates

theorem base_enclosed : (base.links.parents.toList.all fun e => 0 < e.2 && e.2 < base.next) = true ∧
    (base.links.targets.toList.all fun e => e.2 < base.next) = true ∧
    (base.nodes.toList.all fun e => !e.2.isFunction || e.2.subtrees.all (!·.isActive)) = true ∧
    base.arrayLength < base.next ∧ base.links.functions[0]? = none := by
  decide +kernel

theorem callable_base (r : Program) (k : Nat) : Callable r (base.node k) := by
  intro function
  rw [Program.node_eq_getD] at function ⊢
  cases known : base.nodes[k]? with
  | none =>
    rw [known] at function
    cases function
  | some n =>
    rw [known] at function
    refine .inr fun m hm => ?_
    have listed := all_eq_true.1 base_enclosed.2.2.1 (k,n) (Std.TreeMap.mem_toList_iff_getElem?_eq_some.2 known)
    rw [isFunction_of_kind (n := n) function,Bool.not_true,Bool.false_or,all_eq_true] at listed
    simpa using listed m hm.mem_subtrees

theorem Holds.mem_routines {p : Program} {first : Nat} {root n : Node} {around : List Node} (h : Holds p first root)
    (proper : root.Proper) (tree : p.tree = root) (source : root.role = .source)
    (named : ∀ c ∈ root.units.filter (·.isContract), ∃ e, Lists c e) (path : Path root around n)
    (acc : Accessible root n.id) (function : n.isFunctionOf .function) : n ∈ p.routines := by
  have self : root ∈ root.subtrees := self_mem
  have solid := isLeaflet_of function fun _ => rfl
  have kind := role_of_isFunction (isFunction_of_kind function)
  have inside := path.mem_subtrees
  have other : n ≠ root := fun same => by
    rw [same,source] at kind
    cases kind
  obtain same | ⟨c,hu,contract,number⟩ := acc (number_mem inside solid)
  · refine absurd (eq_of_id h.nodup inside self solid (isLeaflet_of_id (same ▸ ?_)) same) other
    exact h.pos.trans_le (h.range n inside solid).1
  have unit := mem_of_part self (root.units_sublist.subset hu)
  have role := role_of_isContract contract
  obtain rfl | ⟨y,hy,hn⟩ := exists_part_of_mem (mem_of_id h.nodup unit inside solid number)
  · rw [role] at kind
    cases kind
  cases path with
  | root => exact absurd rfl other
  | @child around' x _ outer hc =>
    have part := part_of_child hc
    cases eq_of_part h.nodup outer.mem_subtrees (mem_trans hy unit) part hn solid
    have below (m : Node) (hm : m ∈ c.subtrees) := (isProper_iff.1 (proper m (mem_trans hm unit))).1
    have self_c : c ∈ c.subtrees := self_mem
    -- Whatever has functions as its parts stands in no contract.
    have outermost : y = c := by
      obtain rfl | ⟨e,he,hy'⟩ := mem_subtrees.1 hy
      · rfl
      have down (r s : Role) (hr : r ∈ s.below) (hs : .routine ∉ s.below) : .routine ∉ r.below := by
        revert r
        revert hs
        cases s <;> decide
      have start : .routine ∉ e.role.below := by
        have admitted := below c self_c e he
        rw [role] at admitted
        generalize e.role = r at admitted
        revert r
        decide
      have proper_e : e.Proper := proper.inside (mem_of_part unit he)
      have admitted := below y hy n hn
      rw [kind] at admitted
      exact absurd admitted (proper_e.role_of_mem (P := fun r => .routine ∉ r.below) down start y hy')
    subst outermost
    have listed : y ∈ p.contracts := by
      rw [← isSource_iff] at source
      rw [Program.contracts,tree]
      cases root with
      | source => exact mem_filter.2 ⟨hu,contract⟩
      | _ => cases source
    refine mem_flatMap.2 ⟨y,listed,mem_append_right _ (mem_filter.2 ⟨?_,function⟩)⟩
    obtain ⟨e,i,name,-⟩ := named y (mem_filter.2 ⟨hu,contract⟩)
    cases y with
    | contract =>
      obtain rfl | hn := mem_cons.1 (mem_filter.1 hc).1
      · cases Option.some.inj name
        cases kind
      · exact hn
    | _ => cases contract

section Loaded

variable {text : String}

/-- What placing a source leaves as it was. -/
structure Frame (root : Node) (p p' : Program) : Prop where
  parents : ∀ k, (∀ m ∈ root.preorder, m.id ≠ k) → p'.links.parents[k]? = p.links.parents[k]?
  nodes : ∀ (k : Nat) (n : Node), p'.nodes[k]? = some n → p.nodes[k]? = some n ∨ n ∈ root.subtrees
  targets : p'.links.targets = p.links.targets
  length : p'.arrayLength = p.arrayLength
  functions : p'.links.functions[0]? = p.links.functions[0]?
  findings : p'.findings = p.findings

theorem frame_of_placed {start q r : Program} (equipped : Equipped start) (loaded : Runs (load text) start () q)
    (placed : Runs (linkParents q.tree) q () r) (holds : Holds r start.next q.tree) : Frame q.tree start r := by
  obtain ⟨n,unit,loaded⟩ := runs_ofOutcome_bind.1 loaded
  obtain ⟨root,q',known,loaded⟩ := runs_bind.1 loaded
  obtain rfl := runs_modify.1 loaded
  rw [tree_registered equipped.tidy.pos unit known] at placed holds ⊢
  obtain ⟨l,recorded,placed⟩ := runs_ask_bind.1 placed
  obtain rfl := runs_modify.1 placed
  have registered := registered_of_runs (Source.yields_unit text n unit).1.unnumbered known
  rw [registered.links_eq] at recorded
  refine ⟨fun k other => (Links.recordAll_frame recorded other).1,fun k m found => ?_,?_,?_,?_,?_⟩
  · rw [registered.nodes_eq] at found
    exact (mem_withNodes found).imp_right (·.1)
  · change l.targets = _
    rw [Links.recordAll_eq_ok recorded,Links.foldl_record]
  · change q'.arrayLength = _
    rw [registered.eq]
  · change l.functions[0]? = _
    rw [Links.recordAll_eq_ok recorded,Links.foldl_record]
    dsimp only
    have quiet (e : Node × Place) (he : e ∈ root.placings {}) (zero : e.1.id = 0) :
        (if e.1.isStatement = true then e.2.function else none) = none := by
      refine if_neg fun statement => ?_
      have inside : e.1 ∈ root.subtrees := by
        refine root.preorder_sublist.subset ?_
        rw [← map_fst_placings {} root]
        exact mem_map_of_mem he
      have solid : e.1.isLeaflet = false := by
        generalize e.1 = m at statement
        cases m <;> first | rfl | cases statement
      have pos := holds.pos.trans_le (holds.range e.1 inside solid).1
      omega
    by_cases leaflet : ∃ e ∈ root.placings {}, e.1.id = 0
    · rw [Links.getElem?_foldl_put quiet leaflet,Option.none_or]
    · exact Links.getElem?_foldl_put_ne (fun e he zero => leaflet ⟨e,he,zero⟩) _
  · change q'.findings = _
    rw [registered.eq]
    rfl

variable {settings : Settings} {q r s p : Program} (loaded : Runs (load text) { base with settings } () q)
  (placed : Runs (linkParents q.tree) q () r) (filled : Runs (fillNames q.tree) r () s)
include loaded placed

theorem placed_of_base : Placed { base with settings } r q.tree := by
  have unchanged : Runs (linkParents q.tree) { q with output := q.output } () r := placed
  exact placed_of_runs (initial_base settings).equipped loaded unchanged

include filled

theorem tablesOnly_of_runs : TablesOnly (Accessible q.tree) r.next s := by
  have initial := initial_base settings
  have fixed := placed_of_base loaded placed
  have self : q.tree ∈ q.tree.subtrees := self_mem
  have inner {m : Node} (hm : m ∈ q.tree.subtrees) (other : m ≠ q.tree) (acc : Accessible q.tree m.id) :
      m.Inner (Accessible q.tree) r.next := fun x hx solid => by
    have range := fixed.holds.range x (mem_trans hx hm) solid
    exact ⟨fixed.holds.only_accessible hm other acc x hx,fixed.holds.pos.trans_le range.1,range.2⟩
  refine tablesOnly_fillNames (fixed.holds.accessible_of_lt fixed.holds.pos)
    (fixed.holds.pos.trans_le fixed.ext.le) (fun k => fixed.holds.accessible_of_le)
    (isSource_iff.2 fixed.source) (fun m hm acc => ?_) (fun c hc contract => ?_) (fun k hk => ?_) (fun e he => ?_)
    ⟨le_rfl,fun k t _ named => ?_⟩ filled
  · by_cases same : m = q.tree
    · exact .inl (same ▸ isSource_iff.2 fixed.source)
    · exact .inr (inner hm same acc)
  · have role := role_of_isContract contract
    have solid := isLeaflet_of contract fun _ => rfl
    refine inner (mem_of_part self (q.tree.units_sublist.subset hc)) (fun same => ?_) fun _ => ?_
    · rw [same,fixed.source] at role
      cases role
    · exact .inr ⟨c,hc,contract,number_mem self_mem solid⟩
  · rw [fixed.definitions] at hk
    obtain ⟨lt,numbers⟩ := initial.equipped.definitions k hk
    rw [fixed.ext.node lt]
    refine ⟨lt.trans_le fixed.ext.le,fun m hm solid => ?_⟩
    obtain ⟨pos,lt⟩ := numbers m.id (number_mem hm solid)
    exact ⟨fixed.holds.accessible_of_lt lt,pos,lt.trans_le fixed.ext.le⟩
  · rw [fixed.globalNames] at he
    obtain ⟨d,builtin⟩ := initial.equipped.names e he
    exact ⟨fixed.holds.accessible_of_lt builtin.name_lt,builtin.name_pos,builtin.name_lt.trans_le fixed.ext.le⟩
  · rw [fixed.names,initial.equipped.unnamed] at named
    cases named

theorem callable_of_lt {k : Nat} (lt : k < base.next) : k < s.next ∧ Callable s (s.node k) := by
  have fixed := placed_of_base loaded placed
  have tab : Tabulates r s := Tabulates.fillNames _ _ _ _ filled
  have known : k < r.next := lt.trans_le fixed.ext.le
  refine ⟨known.trans_le tab.le,?_⟩
  have node : s.nodes[k]? = base.nodes[k]? := (tab.nodes k known).trans (fixed.ext.nodes k lt)
  rw [Program.node_eq_getD,node,← Std.TreeMap.getD_eq_getD_getElem?]
  exact callable_base s k

theorem enclosed_of_runs : Enclosed (Accessible q.tree) s := by
  have initial := initial_base settings
  have fixed := placed_of_base loaded placed
  have scope := fixed.scoped initial.equipped filled
  have frame := frame_of_placed initial.equipped loaded placed fixed.holds
  have unchanged : Runs (linkParents q.tree) { q with output := q.output } () r := placed
  obtain ⟨quiet,fresh⟩ := initial.placed loaded unchanged
  have quiet : Quiet {} s := Trans.trans quiet (Quiet.fillNames _ _ _ _ filled)
  have tab : Tabulates r s := Tabulates.fillNames _ _ _ _ filled
  have holds := scope.holds
  have self : q.tree ∈ q.tree.subtrees := self_mem
  have solid : q.tree.isLeaflet = false := by
    have source := scope.source
    generalize q.tree = root at source
    cases root <;> first | rfl | cases source
  have zero := holds.accessible_of_lt holds.pos
  have numbered := quiet.numbered (by simp [Program.Numbered])
  exact {
    zero
    new := fun k le => holds.accessible_of_le le
    fresh := fresh_fillNames _ _ _ _ filled fresh
    numbered
    types := quiet.types
    nameless := (callable_of_lt loaded placed filled holds.pos).2
    rooted := scope.root_eq ▸ (holds.range _ self solid).2
    source := by
      rw [scope.root_eq,holds.node_eq self solid]
      exact isSource_iff.2 scope.source
    names := (tablesOnly_of_runs loaded placed filled).entries
    parents := fun k d acc pos lt found => by
      rw [tab.parents] at found
      by_cases inside : ∃ m ∈ q.tree.preorder, m.id = k
      · obtain ⟨m,hm,rfl⟩ := inside
        obtain ⟨around,path,-⟩ := path_of_preorder .root hm
        rw [← tab.parents,holds.parent _ m path (isLeaflet_of_id pos)] at found
        generalize around ++ [] = around at path found
        cases path with
        | root => cases found
        | @child around n _ outer hc =>
          cases found
          have solid := isLeaflet_of_child hc
          have range := holds.range n outer.mem_subtrees solid
          have acc := holds.accessible_parent (outer.child hc) (isLeaflet_of_id pos) acc
          refine ⟨acc,holds.pos.trans_le range.1,range.2,fun function => .inl ?_⟩
          rw [holds.node_eq outer.mem_subtrees solid] at function ⊢
          exact holds.mem_routines scope.proper scope.tree_eq scope.source scope.named outer acc function
      · rw [frame.parents k fun m hm same => inside ⟨m,hm,same⟩] at found
        have listed := all_eq_true.1 base_enclosed.1 (k,d) (Std.TreeMap.mem_toList_iff_getElem?_eq_some.2 found)
        simp only [Bool.and_eq_true,decide_eq_true_eq] at listed
        exact ⟨holds.accessible_of_lt listed.2,listed.1,callable_of_lt loaded placed filled listed.2⟩
    nodes := fun k acc lt other => by
      rw [Program.node_eq_getD]
      cases known : s.nodes[k]? with
      | none => exact only_omitted zero
      | some n =>
        have own : n.id = k := numbered k n known
        obtain known | identifier := tab.new k n known
        · obtain known | inside := frame.nodes k n known
          · exact fun m hm => holds.accessible_of_lt (initial.fresh.under k n known m hm)
          · refine holds.only_accessible inside (fun same => other ?_) (own ▸ acc)
            rw [← own,show n = q.tree from same,scope.root_eq]
        · refine only_iff.2 ⟨own ▸ acc,?_⟩
          cases n with
          | identifier => exact forall_mem_nil _
          | _ => cases identifier
    length := by
      rw [tab.length,frame.length]
      have lt := base_enclosed.2.2.2.1
      exact ⟨holds.accessible_of_lt lt,callable_of_lt loaded placed filled lt⟩ }

theorem leading_of_runs : Leading (Accessible q.tree) s s := by
  have closed := enclosed_of_runs loaded placed filled
  have initial := initial_base settings
  have fixed := placed_of_base loaded placed
  have tab : Tabulates r s := Tabulates.fillNames _ _ _ _ filled
  have frame := frame_of_placed initial.equipped loaded placed fixed.holds
  refine ⟨refl _,closed.fresh,fun k t _ found => ?_⟩
  rw [tab.targets,frame.targets] at found
  have listed := all_eq_true.1 base_enclosed.2.1 (k,t) (Std.TreeMap.mem_toList_iff_getElem?_eq_some.2 found)
  obtain ⟨lt,callable⟩ := callable_of_lt loaded placed filled (of_decide_eq_true listed)
  have own := fixed.holds.accessible_of_lt (of_decide_eq_true listed)
  refine ⟨lt,own,?_,callable⟩
  by_cases root : t = s.root
  · exact .inl root
  · exact .inr (closed.nodes t own lt root)

theorem leading_linkNames (linked : Runs (linkNames q.tree) s () p) : Leading (Accessible q.tree) s p := by
  have closed := enclosed_of_runs loaded placed filled
  have scope := (placed_of_base loaded placed).scoped (initial_base settings).equipped filled
  refine closed.linkNames (leading_of_runs loaded placed filled) (fun m hm solid => ?_) (fun m hm acc => ?_) linked
  · have range := scope.holds.range m hm solid
    exact ⟨scope.holds.pos.trans_le range.1,range.2⟩
  · by_cases same : m = q.tree
    · exact .inl (same ▸ isSource_iff.2 scope.source)
    · exact .inr (scope.holds.only_accessible hm same acc)

end Loaded

section Linked

variable {text : String} {settings : Settings} {p : Program}
  (run : Runs (loadLinked text) { base with settings } () p)
include run

theorem steps_of_runs : ∃ q r s, Runs (load text) { base with settings } () q ∧
    Runs (linkParents q.tree) q () r ∧ Runs (fillNames q.tree) r () s ∧ Runs (linkNames q.tree) s () p := by
  obtain ⟨_,q,loaded,run⟩ := runs_bind.1 run
  replace run := runs_get_bind.1 run
  obtain ⟨_,r,placed,run⟩ := runs_bind.1 run
  obtain ⟨_,s,filled,run⟩ := runs_bind.1 run
  exact ⟨q,r,s,loaded,placed,filled,run⟩

theorem fresh_of_runs : p.Fresh := by
  obtain ⟨q,r,s,loaded,placed,filled,linked⟩ := steps_of_runs run
  exact (leading_linkNames loaded placed filled linked).fresh

theorem findings_of_runs : p.findings = base.findings ∧ p.links.functions[0]? = none := by
  obtain ⟨q,r,s,loaded,placed,filled,linked⟩ := steps_of_runs run
  have frame := frame_of_placed (initial_base settings).equipped loaded placed (placed_of_base loaded placed).holds
  have tab : Tabulates r s := Tabulates.fillNames _ _ _ _ filled
  have kept := (leading_linkNames loaded placed filled linked).kept
  constructor
  · rw [kept.findings,tab.findings,frame.findings]
    rfl
  · rw [kept.functions,tab.functions,frame.functions]
    exact base_enclosed.2.2.2.2

theorem callable_of_runs {f n d : Node} (hf : f ∈ p.routines) (hn : n ∈ f.subtrees) (target : p.target n = .ok d) :
    Callable p d := by
  obtain ⟨root,linked⟩ := linkedSource_of_runs run
  obtain ⟨q,r,s,loaded,placed,filled,linking⟩ := steps_of_runs run
  have scope := (placed_of_base loaded placed).scoped (initial_base settings).equipped filled
  have leading := leading_linkNames loaded placed filled linking
  have tree : p.tree = q.tree := by
    rw [Program.tree,leading.kept.root,leading.kept.toExtends.node (enclosed_of_runs loaded placed filled).rooted]
    exact scope.tree_eq
  have same : s.routines = p.routines := by
    rw [Program.routines,Program.routines,Program.contracts,Program.contracts,scope.tree_eq,tree]
  have acc : Accessible q.tree n.id := by
    intro hk
    obtain ⟨c,hc,unit⟩ := mem_flatMap.1 hf
    have inside := mem_of_part self_mem
      (c.units_sublist.subset (unit_of_routine unit))
    have pos := scope.holds.pos.trans_le (scope.holds.range_of_number hk).1
    have listed : c ∈ q.tree.units ∧ c.isContract := by
      rw [Program.contracts,tree] at hc
      generalize q.tree = root at hc ⊢
      cases root with
      | source => exact mem_filter.1 hc
      | _ => cases hc
    exact .inr ⟨c,listed.1,listed.2,number_mem (mem_trans hn inside) (isLeaflet_of_id pos)⟩
  intro function
  obtain rfl | ⟨k,rfl,leads⟩ := leading.target acc target
  · cases function
  · exact same ▸ leads.callable function

end Linked

end Confidential
