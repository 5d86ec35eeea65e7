import Confidential.Proofs.Callees
import Confidential.Proofs.EquivalenceClasses
import Confidential.Proofs.PublicFunctions
import Confidential.Proofs.Reports

/-!
Call graphs.
-/

namespace Confidential

open List Node Pass

namespace CallGraph

variable {calls : Nat → List Nat} {known leaves : List Nat} {j k n : Nat}

theorem mem_frontier : k ∈ frontier calls known leaves ↔ (∃ l ∈ leaves, k ∈ calls l) ∧ k ∉ known := by
  simp [frontier,mem_eraseDups]

theorem nodup_frontier : (frontier calls known leaves).Nodup :=
  Partition.nodup_eraseDups _

def unknown (n : Nat) (known : List Nat) : Nat :=
  ((List.range n).filter (· ∉ known)).length

theorem unknown_append (lt : k < n) (new : k ∉ known) (hk : k ∈ leaves) : unknown n (known ++ leaves) < unknown n known := by
  have fewer : ((List.range n).filter (· ∉ known ++ leaves)).Sublist (((List.range n).filter (· ∉ known)).erase k) := by
    rw [(nodup_range.filter _).erase_eq_filter,filter_filter]
    refine monotone_filter_right _ fun j hj => ?_
    have outside : j ∉ known ++ leaves := of_decide_eq_true hj
    have other : j ≠ k := fun same => outside (same ▸ mem_append_right _ hk)
    simp_all
  have inside : k ∈ (List.range n).filter (· ∉ known) := by
    simp [lt,new]
  have pos := length_pos_of_mem inside
  have length := fewer.length_le
  rw [length_erase_of_mem inside] at length
  unfold unknown
  omega

inductive Extends (calls : Nat → List Nat) : List Nat → List Nat → List Nat → Prop where
  | done {known leaves : List Nat} (void : frontier calls known leaves = []) : Extends calls known leaves known
  | more {known leaves result : List Nat} (full : frontier calls known leaves ≠ [])
      (rest : Extends calls (known ++ frontier calls known leaves) (frontier calls known leaves) result) :
      Extends calls known leaves result

theorem extend_succ (fuel : Nat) : extend calls (fuel + 1) known leaves = if frontier calls known leaves = [] then known
    else extend calls fuel (known ++ frontier calls known leaves) (frontier calls known leaves) := by
  rw [extend]
  split
  next void => rw [if_pos void]
  next full => rw [if_neg full]

theorem extends_extend (below : ∀ l, ∀ k ∈ calls l, k < n) {fuel : Nat} (enough : unknown n known < fuel) :
    Extends calls known leaves (extend calls fuel known leaves) := by
  induction fuel generalizing known leaves with
  | zero => omega
  | succ _ ih =>
    rw [extend_succ]
    split
    next void => exact .done void
    next full =>
      obtain ⟨k,hk⟩ := exists_mem_of_ne_nil _ full
      obtain ⟨⟨l,-,called⟩,new⟩ := mem_frontier.1 hk
      have fewer := unknown_append (below l k called) new hk
      exact .more full (ih (by omega))

variable {result : List Nat}

theorem Extends.unique {result' : List Nat} (h : Extends calls known leaves result)
    (h' : Extends calls known leaves result') : result = result' := by
  induction h with
  | done void =>
    cases h' with
    | done => rfl
    | more full => exact absurd void full
  | more full _ ih =>
    cases h' with
    | done void => exact absurd void full
    | more _ rest => exact ih rest

theorem Extends.nodup (h : Extends calls known leaves result) (nodup : known.Nodup) : result.Nodup := by
  induction h with
  | done => exact nodup
  | more _ _ ih =>
    refine ih (nodup_append.2 ⟨nodup,nodup_frontier,fun k hk j hj same => ?_⟩)
    exact (mem_frontier.1 hj).2 (same ▸ hk)

theorem Extends.sound (h : Extends calls known leaves result) (hk : k ∈ result) :
    k ∈ known ∨ ∃ l ∈ leaves, Relation.ReflTransGen (fun a b => b ∈ calls a) l k := by
  induction h with
  | done => exact .inl hk
  | more _ _ ih =>
    obtain old | ⟨j,hj,path⟩ := ih hk
    · refine (mem_append.1 old).imp_right fun new => ?_
      obtain ⟨⟨l,hl,called⟩,-⟩ := mem_frontier.1 new
      exact ⟨l,hl,.single called⟩
    · obtain ⟨⟨l,hl,called⟩,-⟩ := mem_frontier.1 hj
      exact .inr ⟨l,hl,.head called path⟩

theorem Extends.closed (h : Extends calls known leaves result)
    (looked : ∀ k ∈ known, k ∈ leaves ∨ calls k ⊆ known) : known ⊆ result ∧ ∀ k ∈ result, calls k ⊆ result := by
  induction h with
  | @done known leaves void =>
    refine ⟨Subset.refl _,fun k hk j hj => ?_⟩
    obtain leaf | inside := looked k hk
    · by_contra new
      have mem := mem_frontier.2 ⟨⟨k,leaf,hj⟩,new⟩
      rw [void] at mem
      cases mem
    · exact inside hj
  | @more known leaves _ full rest ih =>
    obtain ⟨grown,closed⟩ := ih fun k hk => by
      obtain old | new := mem_append.1 hk
      · refine .inr fun j hj => ?_
        obtain leaf | inside := looked k old
        · by_cases mem : j ∈ known
          · exact mem_append_left _ mem
          · exact mem_append_right _ (mem_frontier.2 ⟨⟨k,leaf,hj⟩,mem⟩)
        · exact mem_append_left _ (inside hj)
      · exact .inl new
    exact ⟨fun k hk => grown (mem_append_left _ hk),closed⟩

theorem Extends.mem_iff {start : List Nat} (h : Extends calls start start result) :
    k ∈ result ↔ ∃ l ∈ start, Relation.ReflTransGen (fun a b => b ∈ calls a) l k := by
  obtain ⟨grown,closed⟩ := h.closed fun _ => .inl
  constructor
  · intro hk
    obtain old | reached := h.sound hk
    · exact ⟨k,old,.refl⟩
    · exact reached
  · rintro ⟨l,hl,path⟩
    induction path with
    | refl => exact grown hl
    | tail _ called ih => exact closed _ ih called

end CallGraph

/-- Nothing differs but what is known about functions, and what has been printed. -/
def FactsOnly (p p' : Program) : Prop :=
  p' = { p with functionFacts := p'.functionFacts, output := p'.output }

def Node.isBuiltin (n : Node) : Bool :=
  n matches .builtin ..

namespace Program

def factsOf (p : Program) (k : Nat) : FunctionFacts :=
  p.functionFacts.getD k {}

def withFacts (p : Program) (k : Nat) (facts : FunctionFacts) : Program :=
  { p with functionFacts := p.functionFacts.insert k facts }

theorem factsOf_withFacts (p : Program) (k j : Nat) (facts : FunctionFacts) :
    (p.withFacts k facts).factsOf j = if k = j then facts else p.factsOf j := by
  simp [factsOf,withFacts,Std.TreeMap.getD_insert]

/-- At the node the function `d` is called. Built-in operators and conversions are no calls. -/
def CallsAt (p : Program) (n d : Node) : Prop :=
  ∃ i callee args options, n = .call i callee args options ∧ callee.isBuiltin = false ∧
    p.isCast callee = .ok false ∧ p.target callee = .ok d ∧ d.isFunctionOf .function = true

end Program

namespace FactsOnly

instance : Std.Refl FactsOnly := ⟨fun _ => rfl⟩

instance : IsTrans Program FactsOnly where
  trans p q r h h' := by
    unfold FactsOnly at *
    rw [h',h]

theorem symm {p p' : Program} (h : FactsOnly p p') : FactsOnly p' p := by
  unfold FactsOnly at *
  rw [h]

theorem withFacts (p : Program) (k : Nat) (facts : FunctionFacts) : FactsOnly p (p.withFacts k facts) :=
  rfl

variable {p p' : Program} (h : FactsOnly p p')
include h

theorem next : p'.next = p.next := by
  rw [h]

theorem routines : p'.routines = p.routines := by
  rw [h]
  rfl

theorem target (n : Node) : p'.target n = p.target n := by
  rw [h]
  rfl

theorem isCast (n : Node) : p'.isCast n = p.isCast n := by
  rw [h]
  rfl

theorem function (n : Node) : p'.function n = p.function n := by
  rw [h]
  rfl

theorem functionOf (n : Node) : p'.functionOf n = p.functionOf n := by
  rw [h]
  rfl

theorem callsAt (n d : Node) : p'.CallsAt n d ↔ p.CallsAt n d := by
  unfold Program.CallsAt
  simp only [h.isCast,h.target]

end FactsOnly

def Program.callee? (p : Program) : Node → Option Node
  | .call _ callee _ _ =>
    match p.isCast callee, p.target callee with
    | .ok false, .ok d => if !callee.isBuiltin && d.isFunctionOf .function then some d else none
    | _, _ => none
  | _ => none

variable {p p' q : Program}

theorem Program.callsAt_iff {n d : Node} : p.CallsAt n d ↔ p.callee? n = some d := by
  constructor
  · rintro ⟨i,callee,args,options,rfl,plain,cast,target,function⟩
    simp [callee?,plain,cast,target,function]
  · intro found
    unfold callee? at found
    split at found
    next i callee args options =>
      split at found
      next d' cast target =>
        split at found
        next conditions =>
          cases found
          simp only [Bool.and_eq_true,Bool.not_eq_true'] at conditions
          exact ⟨i,callee,args,options,rfl,conditions.1,cast,target,conditions.2⟩
        next => cases found
      next => cases found
    next => cases found

theorem Program.CallsAt.unique {n d d' : Node} (h : p.CallsAt n d) (h' : p.CallsAt n d') : d = d' :=
  Option.some.inj ((callsAt_iff.1 h).symm.trans (callsAt_iff.1 h'))

namespace Pass

variable {p p' : Program}

variable {n : Node}

theorem runs_updateFacts {f : Node} {change : FunctionFacts → FunctionFacts} {u : Unit} :
    Runs (updateFacts f change) p u p' ↔ p.withFacts f.id (change (p.factsOf f.id)) = p' :=
  runs_modify

theorem directCalls_parameter (h : n.isParameter) : directCalls n = pure () := by
  rw [directCalls,if_pos h]

/-- What was known when a node has been looked at, but not its parts. -/
inductive Looked (n : Node) (p : Program) : Program → Prop where
  | call {f d : Node} (called : p.CallsAt n d) (around : p.functionOf n = .ok f) :
      Looked n p (p.withFacts f.id (if d.id ∈ (p.factsOf f.id).called then p.factsOf f.id
        else { p.factsOf f.id with called := (p.factsOf f.id).called ++ [d.id] }))
  | loop {f : Node} (statement : n.isStatement = true) (around : p.function n = .ok f) (known : f.isOmitted = false) :
      Looked n p (p.withFacts f.id { p.factsOf f.id with hasStaticBody := false })
  | other (quiet : ∀ d, ¬ p.CallsAt n d) : Looked n p p

theorem runs_directCalls (h : n.isParameter = false) (run : Runs (directCalls n) p () p') :
    ∃ q, Looked n p q ∧ Runs (n.children.forM directCalls) q () p' := by
  have attached : n.children.attach.forM (fun c => directCalls c.1) = n.children.forM directCalls := by
    conv => rhs; rw [← attach_map_subtype_val n.children]
    exact (forM_map ..).symm
  rw [directCalls.eq_def,h,if_neg Bool.false_ne_true] at run
  have last {q : Program} (looked : Looked n p q) (run : Runs (do
      ofOutcome n.ensureWalkable
      n.children.attach.forM fun c => directCalls c.1) q () p') :
      ∃ q, Looked n p q ∧ Runs (n.children.forM directCalls) q () p' := by
    obtain ⟨_,-,run⟩ := runs_ofOutcome_bind.1 run
    exact ⟨q,looked,attached ▸ run⟩
  have loop (statement : n.isStatement) (run : Runs (do
      let f ← ask fun p => p.function n
      if f.isOmitted then throw .absent
      updateFacts f fun facts => { facts with hasStaticBody := false }
      ofOutcome n.ensureWalkable
      n.children.attach.forM fun c => directCalls c.1) p () p') :
      ∃ q, Looked n p q ∧ Runs (n.children.forM directCalls) q () p' := by
    obtain ⟨f,around,run⟩ := runs_ask_bind.1 run
    obtain ⟨known,run⟩ := runs_guard.1 run
    obtain ⟨_,_,changed,run⟩ := runs_bind.1 run
    obtain rfl := runs_updateFacts.1 changed
    exact last (.loop statement around known) run
  cases n with
  | call i callee args options =>
    obtain ⟨cast,isCast,run⟩ := runs_ask_bind.1 run
    change Runs (if (!callee.isBuiltin && !cast) = true then _ else _) _ _ _ at run
    by_cases active : (!callee.isBuiltin && !cast)
    · rw [if_pos active] at run
      obtain ⟨place,run⟩ := runs_guard.1 run
      obtain ⟨d,target,run⟩ := runs_ask_bind.1 run
      obtain ⟨ordinary,kind,run⟩ := runs_ofOutcome_bind.1 run
      obtain ⟨isOrdinary,run⟩ := runs_guard.1 run
      obtain ⟨_,_,added,run⟩ := runs_bind.1 run
      obtain ⟨f,around,added⟩ := runs_ask_bind.1 added
      obtain rfl := runs_updateFacts.1 added
      rw [Bool.and_eq_true,Bool.not_eq_true',Bool.not_eq_true'] at active
      refine last (.call ⟨i,callee,args,options,rfl,active.1,active.2 ▸ isCast,target,?_⟩ around) run
      unfold Program.isOrdinary at kind
      split at kind
      · simp_all
      · cases kind
    · rw [if_neg active] at run
      refine last (.other ?_) run
      rintro d ⟨_,_,_,_,same,plain,cast',-,-⟩
      cases same
      rw [isCast] at cast'
      cases cast'
      rw [plain] at active
      exact active rfl
  | forLoop | whileLoop => exact loop rfl run
  | _ => exact last (.other fun d called => by obtain ⟨_,_,_,_,same,-⟩ := called; cases same) run

end Pass

/-- The functions have got the calls `new`. Nothing else is new, but that bodies may not be static. -/
structure Noted (new : Nat → Nat → Prop) (p p' : Program) : Prop where
  only : FactsOnly p p'
  called : ∀ k j, j ∈ (p'.factsOf k).called ↔ j ∈ (p.factsOf k).called ∨ new k j
  nodup : ∀ k, (p.factsOf k).called.Nodup → (p'.factsOf k).called.Nodup
  same : ∀ k, p'.factsOf k =
    { p.factsOf k with called := (p'.factsOf k).called, hasStaticBody := (p'.factsOf k).hasStaticBody }

namespace Noted

variable {new new' : Nat → Nat → Prop} {p q p' : Program}

theorem nothing (p : Program) : Noted (fun _ _ => False) p p where
  only := rfl
  called := by simp
  nodup _ h := h
  same _ := rfl

theorem trans (h : Noted new p q) (h' : Noted new' q p') : Noted (fun k j => new k j ∨ new' k j) p p' where
  only := IsTrans.trans _ _ _ h.only h'.only
  called k j := by rw [h'.called,h.called,or_assoc]
  nodup k := h'.nodup k ∘ h.nodup k
  same k := by rw [h'.same,h.same]

theorem congr (h : Noted new p p') (same : ∀ k j, new k j ↔ new' k j) : Noted new' p p' :=
  funext (fun k => funext fun j => propext (same k j)) ▸ h

theorem call (p : Program) (k d : Nat) : Noted (fun k' j => k = k' ∧ d = j) p (p.withFacts k
    (if d ∈ (p.factsOf k).called then p.factsOf k
      else { p.factsOf k with called := (p.factsOf k).called ++ [d] })) where
  only := rfl
  called k' j := by
    rw [Program.factsOf_withFacts]
    split
    next same =>
      subst same
      split
      next old => exact ⟨.inl,fun h => h.elim id fun new => new.2 ▸ old⟩
      next => simp [eq_comm]
    next other => simp [other]
  nodup k' h := by
    rw [Program.factsOf_withFacts]
    split
    next same =>
      subst same
      split
      next => exact h
      next new => exact nodup_append.2 ⟨h,nodup_singleton d,by grind⟩
    next => exact h
  same k' := by
    rw [Program.factsOf_withFacts]
    split
    next same =>
      subst same
      split <;> rfl
    next => rfl

theorem dynamic (p : Program) (k : Nat) :
    Noted (fun _ _ => False) p (p.withFacts k { p.factsOf k with hasStaticBody := false }) := by
  refine ⟨rfl,fun k' j => ?_,fun k' h => ?_,fun k' => ?_⟩
  all_goals
    rw [Program.factsOf_withFacts]
    split
    next same =>
      subst same
      first | exact h | simp
    next => first | exact h | simp

theorem forM {α : Type} {s : Program} {x : α → Pass Unit} {N : α → Nat → Nat → Prop} {as : List α}
    (step : ∀ a ∈ as, ∀ p p', FactsOnly s p → Runs (x a) p () p' → Noted (N a) p p')
    (only : FactsOnly s p) (run : Runs (as.forM x) p () p') : Noted (fun k j => ∃ a ∈ as, N a k j) p p' := by
  induction as generalizing p with
  | nil =>
    obtain rfl := runs_forM_nil.1 run
    exact (nothing p).congr (by simp)
  | cons _ _ ih =>
    rw [forall_mem_cons] at step
    obtain ⟨q,first,run⟩ := runs_forM_cons.1 run
    have noted := step.1 p q only first
    have rest := ih step.2 (Trans.trans only noted.only) run
    exact (noted.trans rest).congr (by simp)

end Noted

/-- Nothing is new about functions but what they call, and whether they are recursive and static. -/
structure CallsOnly (p p' : Program) : Prop where
  only : FactsOnly p p'
  same : ∀ k, p'.factsOf k = { p.factsOf k with
    called := (p'.factsOf k).called
    isRecursive := (p'.factsOf k).isRecursive
    hasStaticBody := (p'.factsOf k).hasStaticBody }

namespace CallsOnly

instance : Std.Refl CallsOnly := ⟨fun p => ⟨refl p,fun _ => rfl⟩⟩

instance : IsTrans Program CallsOnly where
  trans _ _ _ h h' := ⟨Trans.trans h.only h'.only,fun k => by rw [h'.same,h.same]⟩

end CallsOnly

theorem Noted.callsOnly {new : Nat → Nat → Prop} (h : Noted new p p') : CallsOnly p p' :=
  ⟨h.only,fun k => by rw [h.same]⟩

/-- The nodes that are looked at in `f` know that they stand in it. -/
structure Encloses (p : Program) (f : Node) : Prop where
  expression : ∀ m g, f.Contains m → m.isExpression = true → p.functionOf m = .ok g → g = f
  statement : ∀ m g, f.Contains m → m.isStatement = true → p.function m = .ok g → g.isOmitted = false → g = f

theorem Encloses.mono {f : Node} (h : Encloses p f) (only : FactsOnly p p') : Encloses p' f where
  expression m g := only.functionOf m ▸ h.expression m g
  statement m g := only.function m ▸ h.statement m g

section Direct

variable {p p' q : Program} {f n : Node}

theorem Pass.Looked.noted (h : Looked n p q) (own : Encloses p f) (inside : f.Contains n) :
    Noted (fun k j => f.id = k ∧ ∃ d, p.CallsAt n d ∧ d.id = j) p q := by
  cases h with
  | @call g d called around =>
    have expression : n.isExpression := by
      obtain ⟨i,callee,args,options,rfl,-⟩ := called
      rfl
    cases own.expression n g inside expression around
    refine (Noted.call p f.id d.id).congr fun k j => and_congr_right fun _ => ⟨fun same => ⟨d,called,same⟩,?_⟩
    rintro ⟨d',called',rfl⟩
    rw [called.unique called']
  | @loop g statement around known =>
    cases own.statement n g inside statement around known
    refine (Noted.dynamic p f.id).congr fun k j => iff_of_false id ?_
    rintro ⟨-,d,⟨i,callee,args,options,rfl,-⟩,-⟩
    cases statement
  | other quiet =>
    exact (Noted.nothing p).congr fun k j => iff_of_false id fun ⟨_,d,called,_⟩ => quiet d called

theorem noted_directCalls (own : Encloses p f) (inside : f.Contains n) (run : Runs (directCalls n) p () p') :
    Noted (fun k j => f.id = k ∧ ∃ m d, n.Contains m ∧ p.CallsAt m d ∧ d.id = j) p p' := by
  induction n generalizing p p' with
  | step n ih =>
    cases opened : n.isParameter with
    | true =>
      rw [directCalls_parameter opened] at run
      obtain ⟨-,rfl⟩ := runs_pure.1 run
      refine (Noted.nothing p).congr fun k j => iff_of_false id ?_
      rintro ⟨-,m,d,hm,⟨i,callee,args,options,rfl,-⟩,-⟩
      cases (within_of_closed opened).1 hm
      cases opened
    | false =>
      obtain ⟨q,looked,run⟩ := runs_directCalls opened run
      have first := looked.noted own inside
      have each (c : Node) (hc : c ∈ n.children) (p₁ p₂ : Program) (only : FactsOnly p p₁)
          (run : Runs (directCalls c) p₁ () p₂) :
          Noted (fun k j => f.id = k ∧ ∃ m d, c.Contains m ∧ p.CallsAt m d ∧ d.id = j) p₁ p₂ := by
        have below : f.Contains c := inside.trans (.child opened hc .self)
        refine (ih c (part_of_child hc) (own.mono only) below run).congr fun k j => ?_
        simp only [only.callsAt]
      have rest := Noted.forM each first.only run
      refine (first.trans rest).congr fun k j => ?_
      simp only [within_of_open opened]
      grind

end Direct
section Indirect

/-- What is found to be called by `f`, in at most so many frontiers. -/
def Program.callsIn (p : Program) (rounds : Nat) (f : Node) : List Nat :=
  CallGraph.extend (fun k => (p.factsOf k).called) rounds (p.factsOf f.id).called (p.factsOf f.id).called

/-- Adds the functions that are called indirectly, in at most so many frontiers. -/
def Pass.indirectCallsIn (rounds : Nat) (f : Node) : Pass Unit := do
  let p ← get
  updateFacts f fun facts => { facts with called := p.callsIn rounds f }
  if f.id ∈ p.callsIn rounds f then
    updateFacts f fun facts => { facts with isRecursive := true, hasStaticBody := false }

/-- The call graph, with the functions in this order and at most so many frontiers for each. -/
def Pass.findCallsIn (rounds : Nat) (fs : List Node) : Pass Unit := do
  fs.forM directCalls
  fs.forM (indirectCallsIn rounds)
  fs.forM inheritDynamicBody

variable {D : Nat → Nat → Prop} {p p' q : Program} {f : Node} {rounds : Nat}

structure Replaced (f : Node) (cs : List Nat) (p p' : Program) : Prop where
  only : FactsOnly p p'
  other : ∀ k, f.id ≠ k → p'.factsOf k = p.factsOf k
  called : (p'.factsOf f.id).called = cs
  isRecursive : (p'.factsOf f.id).isRecursive = ((p.factsOf f.id).isRecursive || decide (f.id ∈ cs))
  same : p'.factsOf f.id = { p.factsOf f.id with
    called := cs, isRecursive := (p'.factsOf f.id).isRecursive, hasStaticBody := (p'.factsOf f.id).hasStaticBody }

theorem runs_indirectCallsIn (run : Runs (indirectCallsIn rounds f) p () p') : Replaced f (p.callsIn rounds f) p p' := by
  replace run := runs_get_bind.1 run
  obtain ⟨_,_,first,run⟩ := runs_bind.1 run
  generalize p.callsIn rounds f = cs at first run ⊢
  obtain rfl := runs_updateFacts.1 first
  split at run
  next inside =>
    obtain rfl := runs_updateFacts.1 run
    refine ⟨rfl,fun k other => ?_,?_,?_,?_⟩
    all_goals simp_all [Program.factsOf_withFacts]
  next outside =>
    obtain ⟨-,rfl⟩ := runs_pure.1 run
    refine ⟨rfl,fun k other => ?_,?_,?_,?_⟩
    all_goals simp_all [Program.factsOf_withFacts]

theorem Replaced.callsOnly {cs : List Nat} (h : Replaced f cs p p') : CallsOnly p p' := by
  refine ⟨h.only,fun k => ?_⟩
  by_cases same : f.id = k
  · subst same
    rw [h.same]
  · rw [h.other k same]

/-- The calls of the function `k` lie between the direct ones and all that are reached. -/
structure Between (D : Nat → Nat → Prop) (k : Nat) (closed : Prop) (a : FunctionFacts) : Prop where
  lower : ∀ j, D k j → j ∈ a.called
  upper : ∀ j ∈ a.called, Relation.TransGen D k j
  nodup : a.called.Nodup
  full : closed → ∀ j, Relation.TransGen D k j → j ∈ a.called
  recursive : a.isRecursive = true → Relation.TransGen D k k
  found : closed → Relation.TransGen D k k → a.isRecursive = true

theorem transGen_between {C : Nat → Nat → Prop} (lower : ∀ k j, D k j → C k j)
    (upper : ∀ k j, C k j → Relation.TransGen D k j) (k j : Nat) : Relation.TransGen C k j ↔ Relation.TransGen D k j := by
  constructor
  · intro path
    induction path with
    | single step => exact upper _ _ step
    | tail _ step ih => exact ih.trans (upper _ _ step)
  · exact Relation.TransGen.mono lower k j

variable {done : Nat → Prop} {n : Nat} (below : ∀ k j, D k j → j < n) (enough : n < rounds)
  (h : ∀ k, Between D k (done k) (p.factsOf k))
include below enough h

theorem extends_of_between (f : Node) : CallGraph.Extends (fun k => (p.factsOf k).called) (p.factsOf f.id).called
    (p.factsOf f.id).called (p.callsIn rounds f) := by
  refine CallGraph.extends_extend (n := n) (fun k j hj => ?_) (Nat.lt_of_le_of_lt ?_ enough)
  · obtain step | ⟨_,step⟩ := (h k).upper j hj
    · exact below _ _ step
    · exact below _ _ step
  · exact (length_filter_le ..).trans_eq length_range

theorem indirectCallsIn_of_le {more : Nat} (le : rounds ≤ more) (run : Runs (indirectCallsIn rounds f) p () p') :
    Runs (indirectCallsIn more f) p () p' := by
  have same : p.callsIn rounds f = p.callsIn more f :=
    (extends_of_between below enough h f).unique (extends_of_between below (enough.trans_le le) h f)
  replace run := runs_get_bind.1 run
  rw [same] at run
  exact runs_bind.2 ⟨_,_,runs_get.2 ⟨rfl,rfl⟩,run⟩

theorem between_indirectCalls (run : Runs (indirectCallsIn rounds f) p () p') (k : Nat) :
    Between D k (f.id = k ∨ done k) (p'.factsOf k) := by
  have replaced := runs_indirectCallsIn run
  by_cases same : f.id = k
  · subst same
    have ends := extends_of_between below enough h f
    have mem (j : Nat) : j ∈ (p'.factsOf f.id).called ↔ Relation.TransGen D f.id j := by
      rw [replaced.called,ends.mem_iff,← transGen_between (fun k => (h k).lower) (fun k => (h k).upper),
        Relation.TransGen.head'_iff]
    have recursive : (p'.factsOf f.id).isRecursive ↔ Relation.TransGen D f.id f.id := by
      rw [replaced.isRecursive,← replaced.called,Bool.or_eq_true,decide_eq_true_eq,mem]
      exact or_iff_right_of_imp (h f.id).recursive
    exact {
      lower := fun j step => (mem j).2 (.single step)
      upper := fun j => (mem j).1
      nodup := replaced.called ▸ ends.nodup (h f.id).nodup
      full := fun _ j => (mem j).2
      recursive := recursive.1
      found := fun _ => recursive.2 }
  · rw [replaced.other k same]
    exact { h k with full := fun closed => (h k).full (closed.resolve_left same)
                     found := fun closed => (h k).found (closed.resolve_left same) }

omit h in
theorem between_of_runs {fs : List Node} (h : ∀ k, Between D k (done k) (p.factsOf k))
    (run : Runs (fs.forM (indirectCallsIn rounds)) p () p') :
    (∀ k, Between D k (done k ∨ ∃ f ∈ fs, f.id = k) (p'.factsOf k)) ∧
      ∀ more, rounds ≤ more → Runs (fs.forM (indirectCallsIn more)) p () p' := by
  induction fs generalizing p done with
  | nil =>
    obtain rfl := runs_forM_nil.1 run
    exact ⟨by simpa using h,fun _ _ => runs_forM_nil.2 rfl⟩
  | cons f fs ih =>
    obtain ⟨q,first,run⟩ := runs_forM_cons.1 run
    obtain ⟨closed,again⟩ := ih (between_indirectCalls below enough h first) run
    refine ⟨fun k => ?_,fun more le => ?_⟩
    · have same : (done k ∨ ∃ g ∈ f :: fs, g.id = k) ↔ (f.id = k ∨ done k) ∨ ∃ g ∈ fs, g.id = k := by
        simp only [exists_mem_cons_iff]
        tauto
      rw [propext same]
      exact closed k
    · exact runs_forM_cons.2 ⟨q,indirectCallsIn_of_le below enough h le first,again more le⟩

omit below enough h

theorem noted_inheritDynamicBody (run : Runs (inheritDynamicBody f) p () p') : Noted (fun _ _ => False) p p' := by
  replace run := runs_get_bind.1 run
  split at run
  · obtain rfl := runs_updateFacts.1 run
    exact .dynamic p f.id
  · obtain ⟨-,rfl⟩ := runs_pure.1 run
    exact .nothing p

theorem Between.congr {k : Nat} {closed : Prop} {a b : FunctionFacts} (h : Between D k closed a)
    (called : ∀ j, j ∈ b.called ↔ j ∈ a.called) (nodup : b.called.Nodup) (recursive : b.isRecursive = a.isRecursive) :
    Between D k closed b where
  lower j step := (called j).2 (h.lower j step)
  upper j hj := h.upper j ((called j).1 hj)
  nodup := nodup
  full done j path := (called j).2 (h.full done j path)
  recursive hb := h.recursive (recursive ▸ hb)
  found done path := recursive ▸ h.found done path

end Indirect

def Program.Invokes (p : Program) (f d : Node) : Prop :=
  ∃ m, f.Contains m ∧ p.CallsAt m d

/-- From `f` the function `d` is reached by one or more calls. -/
def Program.Reaches (p : Program) : Node → Node → Prop :=
  Relation.TransGen p.Invokes

def Program.InvokesBetween (p : Program) (k j : Nat) : Prop :=
  ∃ f ∈ p.routines, f.id = k ∧ ∃ d, p.Invokes f d ∧ d.id = j

/-- What the analysis of calls needs to know about a program that has not been analysed. -/
structure Callgraphable (p : Program) : Prop where
  encloses : ∀ f ∈ p.routines, Encloses p f
  node : ∀ f ∈ p.routines, p.node f.id = f
  numbered : p.Numbered
  fresh : p.Fresh
  callable : ∀ f ∈ p.routines, ∀ m ∈ f.subtrees, ∀ d, p.target m = .ok d → Callable p d
  silent : ∀ k, (p.factsOf k).called = [] ∧ (p.factsOf k).isRecursive = false

section Exact

variable {p q : Program} {f d : Node} (ready : Callgraphable p)
include ready

theorem Callgraphable.node_id {k : Nat} (known : (p.node k).isOmitted = false) : (p.node k).id = k := by
  rw [Program.node_eq_getD] at known ⊢
  cases found : p.nodes[k]? with
  | none =>
    rw [found] at known
    cases known
  | some d => exact ready.numbered k d found

theorem Callgraphable.callsAt {m : Node} (h : p.CallsAt m d) : p.node d.id = d ∧ d.id < p.next := by
  obtain ⟨i,callee,args,options,rfl,-,-,target,function⟩ := h
  have known := isOmitted_of function rfl
  exact ⟨ready.numbered.node_eq target known,ready.fresh.target target d self_mem⟩

theorem Callgraphable.invoked (hf : f ∈ p.routines) (step : p.Invokes f d) : d ∈ p.routines ∨ d.Idle := by
  obtain ⟨m,hm,i,callee,args,options,rfl,-,-,target,function⟩ := step
  have inside : callee ∈ f.subtrees := mem_of_part hm.mem_subtrees (by simp [parts])
  exact ready.callable f hf callee inside d target function

omit ready in
theorem Program.Invokes.not_idle {g : Node} (step : p.Invokes d g) : ¬ d.Idle := by
  obtain ⟨m,hm,i,callee,args,options,rfl,active,-⟩ := step
  intro idle
  have quiet := idle _ hm
  change (!callee.isBuiltin) = false at quiet
  rw [active] at quiet
  cases quiet

theorem Callgraphable.reached (hf : f ∈ p.routines) (path : p.Reaches f d) :
    Relation.TransGen p.InvokesBetween f.id d.id ∧ d.isFunctionOf .function ∧ (d ∈ p.routines ∨ d.Idle) := by
  have known {b c : Node} (step : p.Invokes b c) : c.isFunctionOf .function := by
    obtain ⟨m,-,i,callee,args,options,-,-,-,-,function⟩ := step
    exact function
  induction path with
  | single step => exact ⟨.single ⟨f,hf,rfl,_,step,rfl⟩,known step,ready.invoked hf step⟩
  | @tail b c _ step ih =>
    have hb := ih.2.2.resolve_right step.not_idle
    exact ⟨.tail ih.1 ⟨b,hb,rfl,c,step,rfl⟩,known step,ready.invoked hb step⟩

theorem Callgraphable.reaches_iff (hf : f ∈ p.routines) (k : Nat) :
    Relation.TransGen p.InvokesBetween f.id k ↔ p.Reaches f (p.node k) := by
  constructor
  · intro path
    induction path with
    | single step =>
      obtain ⟨g,hg,same,d,⟨m,hm,called⟩,rfl⟩ := step
      rw [(ready.callsAt called).1,← ready.node f hf,← same,ready.node g hg]
      exact .single ⟨m,hm,called⟩
    | tail _ step ih =>
      obtain ⟨g,hg,rfl,d,⟨m,hm,called⟩,rfl⟩ := step
      rw [ready.node g hg] at ih
      rw [(ready.callsAt called).1]
      exact .tail ih ⟨m,hm,called⟩
  · intro path
    obtain ⟨numbers,function,-⟩ := ready.reached hf path
    have solid : (p.node k).isOmitted = false := by
      generalize p.node k = d at function
      cases d <;> first | rfl | cases function
    rwa [ready.node_id solid] at numbers

variable {fs : List Node} {rounds : Nat}

theorem Callgraphable.noted (order : fs.Perm p.routines) (run : Runs (fs.forM directCalls) p () q) :
    Noted (fun k j => ∃ f ∈ fs, f.id = k ∧ ∃ d, p.Invokes f d ∧ d.id = j) p q := by
  refine Noted.forM (fun f hf p₁ p₂ only run => ?_) (refl p) run
  have own := (ready.encloses f (order.mem_iff.1 hf)).mono only
  refine (noted_directCalls own .self run).congr fun k j => and_congr_right fun _ => ?_
  simp only [Program.Invokes,only.callsAt]
  grind

theorem Callgraphable.callsOnly (order : fs.Perm p.routines) (run : Runs (findCallsIn rounds fs) p () q) : CallsOnly p q := by
  obtain ⟨_,q₁,direct,run⟩ := runs_bind.1 run
  obtain ⟨_,q₂,indirect,inherit⟩ := runs_bind.1 run
  have middle : CallsOnly q₁ q₂ :=
    Keeps.forM (fun f _ _ _ _ run => (runs_indirectCallsIn run).callsOnly) _ _ _ indirect
  have last : CallsOnly q₂ q :=
    Keeps.forM (fun f _ _ _ _ run => (noted_inheritDynamicBody run).callsOnly) _ _ _ inherit
  exact Trans.trans (ready.noted order direct).callsOnly (Trans.trans middle last)

theorem Callgraphable.between (order : fs.Perm p.routines) (enough : p.next < rounds)
    (run : Runs (findCallsIn rounds fs) p () q) :
    (∀ k, Between p.InvokesBetween k (∃ f ∈ p.routines, f.id = k) (q.factsOf k)) ∧
      ∀ more, rounds ≤ more → Runs (findCallsIn more fs) p () q := by
  obtain ⟨_,q₁,direct,run⟩ := runs_bind.1 run
  obtain ⟨_,q₂,indirect,inherit⟩ := runs_bind.1 run
  have noted := ready.noted order direct
  have start (k : Nat) : Between p.InvokesBetween k False (q₁.factsOf k) := by
    have called (j : Nat) : j ∈ (q₁.factsOf k).called ↔ p.InvokesBetween k j := by
      rw [noted.called,(ready.silent k).1]
      simp only [not_mem_nil,false_or,Program.InvokesBetween,order.mem_iff]
    refine ⟨fun j => (called j).2,fun j hj => .single ((called j).1 hj),?_,False.elim,?_,False.elim⟩
    · exact noted.nodup k ((ready.silent k).1 ▸ nodup_nil)
    · rw [noted.same k,(ready.silent k).2]
      simp
  have below (k j : Nat) (step : p.InvokesBetween k j) : j < p.next := by
    obtain ⟨f,-,-,d,⟨m,-,called⟩,rfl⟩ := step
    exact (ready.callsAt called).2
  obtain ⟨closed,again⟩ := between_of_runs below enough start indirect
  have last := Noted.forM (s := q₂) (fun f _ _ _ _ run => noted_inheritDynamicBody run) (Std.Refl.refl q₂) inherit
  refine ⟨fun k => ?_,fun more le =>
    runs_bind.2 ⟨(),q₁,direct,runs_bind.2 ⟨(),q₂,again more le,inherit⟩⟩⟩
  have same : (∃ f ∈ p.routines, f.id = k) ↔ False ∨ ∃ f ∈ fs, f.id = k := by
    simp only [false_or,order.mem_iff]
  rw [propext same]
  refine (closed k).congr (fun j => ?_) (last.nodup k (closed k).nodup) ?_
  · rw [last.called]
    simp
  · rw [last.same]

end Exact

/-- The step changes nothing but what is known about functions, and it ends whatever is known about them. -/
def Steady {α : Type} (x : Pass α) : Prop :=
  ∀ p a p', Runs x p a p' → FactsOnly p p' ∧ ∀ q, FactsOnly p q → ∃ q', Runs x q a q'

namespace Steady

variable {α β : Type}

theorem pure {a : α} : Steady (pure a) := by
  intro p b p' run
  obtain ⟨rfl,rfl⟩ := runs_pure.1 run
  exact ⟨refl p,fun q _ => ⟨q,runs_pure.2 ⟨rfl,rfl⟩⟩⟩

theorem throw {e : Fault} : Steady (throw e : Pass α) :=
  fun _ _ _ run => absurd run runs_throw

theorem ofOutcome {r : Outcome α} : Steady (ofOutcome r) := by
  intro p a p' run
  obtain ⟨found,rfl⟩ := runs_ofOutcome.1 run
  exact ⟨refl p,fun q _ => ⟨q,runs_ofOutcome.2 ⟨found,rfl⟩⟩⟩

theorem ask {g : Program → Outcome α} (same : ∀ p q, FactsOnly p q → g q = g p) : Steady (ask g) := by
  intro p a p' run
  obtain ⟨found,rfl⟩ := runs_ask.1 run
  exact ⟨refl p,fun q only => ⟨q,runs_ask.2 ⟨(same p q only).trans found,rfl⟩⟩⟩

theorem updateFacts {f : Node} {change : FunctionFacts → FunctionFacts} : Steady (updateFacts f change) := by
  intro p a p' run
  obtain rfl := runs_updateFacts.1 run
  exact ⟨.withFacts ..,fun q _ => ⟨_,runs_updateFacts.2 rfl⟩⟩

theorem bind {x : Pass α} {g : α → Pass β} (h : Steady x) (step : ∀ a, Steady (g a)) : Steady (x >>= g) := by
  intro p b p' run
  obtain ⟨a,r,first,run⟩ := runs_bind.1 run
  obtain ⟨only,again⟩ := h p a r first
  obtain ⟨only',again'⟩ := step a r b p' run
  refine ⟨Trans.trans only only',fun q same => ?_⟩
  obtain ⟨r',first'⟩ := again q same
  have between : FactsOnly r r' :=
    Trans.trans only.symm (Trans.trans same (h q a r' first').1)
  obtain ⟨q',run'⟩ := again' r' between
  exact ⟨q',runs_bind.2 ⟨a,r',first',run'⟩⟩

theorem ite {c : Prop} [Decidable c] {x y : Pass α} (h : Steady x) (h' : Steady y) : Steady (if c then x else y) := by
  split <;> assumption

theorem forM {f : α → Pass Unit} {as : List α} (step : ∀ a ∈ as, Steady (f a)) : Steady (as.forM f) := by
  induction as with
  | nil => exact pure
  | cons _ _ ih =>
    rw [forall_mem_cons] at step
    exact bind step.1 fun _ => ih step.2

theorem directCalls (n : Node) : Steady (directCalls n) := by
  induction n with
  | step n ih =>
    rw [Pass.directCalls.eq_def]
    refine ite pure ?_
    have last : Steady (do
        Pass.ofOutcome n.ensureWalkable
        n.children.attach.forM fun c => Pass.directCalls c.1) :=
      bind ofOutcome fun _ => forM fun c _ => ih c.1 (part_of_child c.2)
    have loop : Steady (do
        let f ← Pass.ask fun p => p.function n
        if f.isOmitted then MonadExcept.throw Fault.absent
        Pass.updateFacts f fun facts => { facts with hasStaticBody := false }
        Pass.ofOutcome n.ensureWalkable
        n.children.attach.forM fun c => Pass.directCalls c.1) := by
      refine bind (ask fun p q only => only.function n) fun f => ?_
      exact ite (bind throw fun _ => bind updateFacts fun _ => last) (bind updateFacts fun _ => last)
    cases n with
    | call i callee args options =>
      refine bind (ask fun p q only => only.isCast callee) fun cast => ite ?_ last
      have found : Steady (do
          let f ← Pass.ask fun p => p.target callee
          if !(← Pass.ofOutcome (Program.isOrdinary f)) then MonadExcept.throw Fault.violated
          addCall (.call i callee args options) f
          Pass.ofOutcome (Node.call i callee args options).ensureWalkable
          (Node.call i callee args options).children.attach.forM fun c => Pass.directCalls c.1) := by
        refine bind (ask fun p q only => only.target callee) fun d => bind ofOutcome fun ordinary => ?_
        have added : Steady (addCall (.call i callee args options) d) :=
          bind (ask fun p q only => only.functionOf _) fun f => updateFacts
        exact ite (bind throw fun _ => bind added fun _ => last) (bind added fun _ => last)
      exact ite (bind throw fun _ => found) found
    | forLoop | whileLoop => exact loop
    | _ => exact last

end Steady

theorem ends_indirectCallsIn (rounds : Nat) (f : Node) (p : Program) : Ends (indirectCallsIn rounds f) p fun _ _ => True := by
  refine .bind (R := fun _ _ => True) (.get trivial) fun r q _ => ?_
  refine .bind (R := fun _ _ => True) ⟨(),_,runs_updateFacts.2 rfl,trivial⟩ fun _ q' _ => ?_
  by_cases recursive : f.id ∈ r.callsIn rounds f
  · rw [if_pos recursive]
    exact ⟨(),_,runs_updateFacts.2 rfl,trivial⟩
  · rw [if_neg recursive]
    exact .pure trivial

theorem ends_inheritDynamicBody (f : Node) (p : Program) : Ends (inheritDynamicBody f) p fun _ _ => True := by
  refine .bind (R := fun _ _ => True) (.get trivial) fun r q _ => ?_
  split
  · exact ⟨(),_,runs_updateFacts.2 rfl,trivial⟩
  · exact .pure trivial

theorem ends_findCallsIn {fs gs : List Node} {rounds rounds' : Nat} (order : gs.Perm fs)
    (run : Runs (findCallsIn rounds fs) p () q) : ∃ q', Runs (findCallsIn rounds' gs) p () q' := by
  obtain ⟨_,q₁,direct,-⟩ := runs_bind.1 run
  have reached {fs : List Node} {p₁ : Program} (only : FactsOnly p p₁) (run : Runs (fs.forM directCalls) p₁ () q₁) :
      ∀ f ∈ fs, ∃ p₂ p₃, FactsOnly p p₂ ∧ Runs (directCalls f) p₂ () p₃ := by
    induction fs generalizing p₁ with
    | nil => exact forall_mem_nil _
    | cons f _ ih =>
      obtain ⟨p₂,first,rest⟩ := runs_forM_cons.1 run
      have kept := (Steady.directCalls f p₁ () p₂ first).1
      exact forall_mem_cons.2 ⟨⟨p₁,p₂,only,first⟩,ih (Trans.trans only kept) rest⟩
  have each (f : Node) (hf : f ∈ gs) (p₁ : Program) (only : FactsOnly p p₁) :
      Ends (directCalls f) p₁ fun _ => FactsOnly p := by
    obtain ⟨p₂,p₃,only',run⟩ := reached (refl p) direct f (order.mem_iff.1 hf)
    obtain ⟨p₄,again⟩ := (Steady.directCalls f p₂ () p₃ run).2 p₁ (Trans.trans only'.symm only)
    exact ⟨(),p₄,again,Trans.trans only (Steady.directCalls f p₁ () p₄ again).1⟩
  obtain ⟨_,q₁,direct',-⟩ := Ends.forM each (refl p)
  obtain ⟨_,q₂,indirect,-⟩ : Ends (gs.forM (indirectCallsIn rounds')) q₁ fun _ _ => True :=
    Ends.forM (fun f _ p₁ _ => ends_indirectCallsIn rounds' f p₁) trivial
  obtain ⟨_,q',inherit,-⟩ : Ends (gs.forM inheritDynamicBody) q₂ fun _ _ => True :=
    Ends.forM (fun f _ p₁ _ => ends_inheritDynamicBody f p₁) trivial
  exact ⟨q',runs_bind.2 ⟨(),q₁,direct',runs_bind.2 ⟨(),q₂,indirect,inherit⟩⟩⟩

theorem runs_indirectCalls {f : Node} (run : Runs (indirectCalls f) p () p') :
    Runs (indirectCallsIn (p.next + 1) f) p () p' := by
  replace run := runs_get_bind.1 run
  refine runs_bind.2 ⟨p,p,runs_get.2 ⟨rfl,rfl⟩,?_⟩
  have same : p.callsIn (p.next + 1) f =
      CallGraph.close (fun k => (p.functionFacts.getD k {}).called) p.next (p.facts f).called := by
    unfold Program.callsIn CallGraph.close
    rfl
  rw [same]
  exact run

theorem runs_findCalls (run : Runs findCalls p () q) : Runs (findCallsIn (p.next + 1) p.routines) p () q := by
  have indirect {fs : List Node} {p₁ p₂ : Program} (only : FactsOnly p p₁) (run : Runs (fs.forM indirectCalls) p₁ () p₂) :
      FactsOnly p p₂ ∧ Runs (fs.forM (indirectCallsIn (p.next + 1))) p₁ () p₂ := by
    induction fs generalizing p₁ with
    | nil =>
      obtain rfl := runs_forM_nil.1 run
      exact ⟨only,runs_forM_nil.2 rfl⟩
    | cons _ _ ih =>
      obtain ⟨p₃,first,rest⟩ := runs_forM_cons.1 run
      have first := runs_indirectCalls first
      rw [only.next] at first
      have kept := Trans.trans only (runs_indirectCallsIn first).only
      exact ⟨(ih kept rest).1,runs_forM_cons.2 ⟨p₃,first,(ih kept rest).2⟩⟩
  replace run := runs_get_bind.1 run
  obtain ⟨_,q₁,direct,run⟩ := runs_bind.1 run
  replace run := runs_get_bind.1 run
  obtain ⟨_,q₂,closing,run⟩ := runs_bind.1 run
  have inherit := runs_get_bind.1 run
  have first : FactsOnly p q₁ := (Steady.forM (fun f _ => Steady.directCalls f) p () q₁ direct).1
  obtain ⟨second,closing⟩ := indirect first closing
  rw [first.routines] at closing
  rw [second.routines] at inherit
  exact runs_bind.2 ⟨(),q₁,direct,runs_bind.2 ⟨(),q₂,closing,inherit⟩⟩

section Linked

variable {p : Program} {first : Nat} {root f : Node} (h : LinkedSource p first root)
include h

theorem LinkedSource.function_eq {s : Node} {inner around : List Node} (path : Path root (inner ++ f :: around) s)
    (function : f.isFunction) (void : ∀ x ∈ inner, x.isFunction = false) (statement : s.isStatement) :
    p.function s = .ok f := by
  have solid {n : Node} (kind : n.isStatement ∨ n.isFunction) : n.isLeaflet = false := by
    cases n <;> first | rfl | simp [isStatement,isFunction] at kind
  have found : (inner ++ f :: around).find? (·.isFunction) = some f := by
    rw [find?_append,find?_eq_none.2 (by simpa using void),Option.none_or,find?_cons_of_pos function]
  rw [Program.function,h.holds.function _ s path statement (solid (.inl statement)),found]
  exact congrArg Except.ok (h.holds.node_eq path.suffix.mem_subtrees (solid (.inr function)))

theorem LinkedSource.encloses (outside : p.links.functions[0]? = none) (hf : f ∈ p.routines) : Encloses p f := by
  obtain ⟨around,path⟩ := h.path_of_routine hf
  have function := Program.isFunction_of_routine hf
  have proper := h.proper.inside path.mem_subtrees
  have role : f.role ∈ Role.outer := by
    cases f with
    | function => simp [Node.role,Role.outer]
    | _ => cases function
  -- Between a node and its function there are no functions.
  have place {m : Node} (inside : f.Contains m) (kind : m.isExpression ∨ m.isStatement) :
      ∃ inner, Path root (inner ++ f :: around) m ∧ ∀ x ∈ inner, x.isFunction = false := by
    obtain ⟨ms,around',path',eq,parts⟩ := inside.around path
    cases ms with
    | nil =>
      cases eq
      cases f with
      | function => cases kind <;> contradiction
      | _ => cases function
    | cons _ ms =>
      cases eq
      refine ⟨ms,path',fun y hy => ?_⟩
      obtain ⟨c,hc,hy⟩ := parts y (mem_cons_of_mem _ hy)
      have inner := isOuter_of_part proper function hc y hy
      by_contra other
      rw [isOuter_of_isFunction (by simpa using other)] at inner
      cases inner
  constructor
  · intro m g inside expression around'
    obtain ⟨inner,path',void⟩ := place inside (.inl expression)
    have solid := isLeaflet_of expression fun _ => rfl
    obtain ⟨s,statement,around'⟩ := bind_ok.1 around'
    obtain ⟨g',around',known⟩ := bind_ok.1 around'
    rw [Program.statement,h.holds.statement _ m path' expression solid] at statement
    cases found : (inner ++ f :: around).find? (·.isStatement) with
    | none =>
      rw [found] at statement
      dsimp only [Option.map_none] at statement
      split at statement
      · cases statement
        rw [Program.function,show Node.omitted.id = 0 from rfl,outside] at around'
        cases around'
      · cases statement
    | some t =>
      have kind : t.isStatement := find?_some found
      have within : t ∈ inner := by
        obtain here | there := mem_append.1 (mem_of_find?_eq_some found)
        · exact here
        obtain rfl | there := mem_cons.1 there
        · cases t with
          | function => cases kind
          | _ => cases function
        · rw [path.isStatement_eq_false h.proper role t there] at kind
          cases kind
      obtain ⟨inner,outer,rfl⟩ := append_of_mem within
      rw [append_assoc,cons_append] at path'
      have stands : p.node t.id = t := by
        refine h.holds.node_eq path'.suffix.mem_subtrees ?_
        cases t <;> first | rfl | cases kind
      rw [found,Option.map_some] at statement
      obtain rfl : t = s := stands ▸ Except.ok.inj statement
      rw [h.function_eq path'.suffix function (fun x hx => void x (by simp [hx])) kind] at around'
      cases around'
      split at known
      · cases known
      · exact (Except.ok.inj known).symm
  · intro m g inside statement around' known
    obtain ⟨inner,path',void⟩ := place inside (.inr statement)
    rw [h.function_eq path' function void statement] at around'
    exact (Except.ok.inj around').symm

end Linked

theorem base_unclassified : (Globals.base.functionFacts.toList.all fun e => e.2.called.isEmpty && !e.2.isRecursive &&
      e.2.privacy == .pub && !e.2.verifiedOutside) = true ∧
    Globals.base.hidden.isEmpty ∧ Globals.base.privateOperators.isEmpty := by
  decide +kernel

section Loaded

variable {text : String} {settings : Settings} {p q : Program}
  (linked : Runs (loadLinked text) { Globals.base with settings } () p)
include linked

theorem unclassified_of_runs (k : Nat) : (p.factsOf k).called = [] ∧ (p.factsOf k).isRecursive = false ∧
    (p.factsOf k).privacy = .pub ∧ (p.factsOf k).verifiedOutside = false := by
  have same : p.functionFacts = Globals.base.functionFacts := congrArg Prod.fst (findings_of_runs linked).1
  rw [Program.factsOf,same,Std.TreeMap.getD_eq_getD_getElem?]
  cases known : Globals.base.functionFacts[k]? with
  | none => exact ⟨rfl,rfl,rfl,rfl⟩
  | some facts =>
    have plain := all_eq_true.1 base_unclassified.1 (k,facts) (Std.TreeMap.mem_toList_iff_getElem?_eq_some.2 known)
    simp only [Bool.and_eq_true,List.isEmpty_iff,Bool.not_eq_true',beq_iff_eq] at plain
    exact ⟨plain.1.1.1,plain.1.1.2,plain.1.2,plain.2⟩

theorem callgraphable_of_runs : Callgraphable p := by
  obtain ⟨root,source⟩ := linkedSource_of_runs linked
  refine ⟨fun f => source.encloses (findings_of_runs linked).2,fun f hf => ?_,source.numbered,fresh_of_runs linked,
    fun f hf m hm d => callable_of_runs linked hf hm,fun k => ?_⟩
  · obtain ⟨around,path⟩ := source.path_of_routine hf
    refine source.holds.node_eq path.mem_subtrees ?_
    have function := Program.isFunction_of_routine hf
    cases f <;> first | rfl | cases function
  · exact ⟨(unclassified_of_runs linked k).1,(unclassified_of_runs linked k).2.1⟩

/-- The call graph is exact. A function calls what it reaches, each function once, and it is recursive if it
reaches itself. The frontiers end by themselves, and the order of the functions does not matter. -/
theorem call_graph_exact (run : Runs findCalls p () q) :
    (∀ f ∈ p.routines, (q.facts f).called.Nodup ∧
      (∀ k, k ∈ (q.facts f).called ↔ p.Reaches f (p.node k)) ∧
      ((q.facts f).isRecursive = true ↔ p.Reaches f f)) ∧
    ∀ rounds, p.next < rounds → Runs (findCallsIn rounds p.routines) p () q ∧
      ∀ fs, fs.Perm p.routines → ∃ q', Runs (findCallsIn rounds fs) p () q' ∧ ∀ f ∈ p.routines,
        (q'.facts f).called.Perm (q.facts f).called ∧ (q'.facts f).isRecursive = (q.facts f).isRecursive := by
  have ready := callgraphable_of_runs linked
  have started := runs_findCalls run
  obtain ⟨between,again⟩ := ready.between (.refl _) (Nat.lt_succ_self p.next) started
  refine ⟨fun f hf => ?_,fun rounds enough => ⟨again rounds enough,fun fs order => ?_⟩⟩
  · have closed := between f.id
    have here : ∃ g ∈ p.routines, g.id = f.id := ⟨f,hf,rfl⟩
    have mem (k : Nat) : k ∈ (q.facts f).called ↔ p.Reaches f (p.node k) := by
      rw [← ready.reaches_iff hf]
      exact ⟨closed.upper k,closed.full here k⟩
    refine ⟨closed.nodup,mem,?_⟩
    have reaches := ready.reaches_iff hf f.id
    rw [ready.node f hf] at reaches
    rw [← reaches]
    exact ⟨closed.recursive,closed.found here⟩
  · obtain ⟨q',run'⟩ : ∃ q', Runs (findCallsIn rounds fs) p () q' := ends_findCallsIn order started
    obtain ⟨between',-⟩ := ready.between order enough run'
    refine ⟨q',run',fun f hf => ?_⟩
    have here : ∃ g ∈ p.routines, g.id = f.id := ⟨f,hf,rfl⟩
    have left := between f.id
    have right := between' f.id
    constructor
    · refine (perm_ext_iff_of_nodup right.nodup left.nodup).2 fun k => ?_
      exact ⟨fun hk => left.full here k (right.upper k hk),fun hk => right.full here k (left.upper k hk)⟩
    · rw [Bool.eq_iff_iff]
      exact ⟨fun hk => left.found here (right.recursive hk),fun hk => right.found here (left.recursive hk)⟩

end Loaded

def recursiveCalls : String :=
  "contract C\x7bfunction f()public\x7bg();\x7dfunction g()public\x7bf();\x7dfunction h()public\x7bf();\x7d\x7d"

/-- The first two of three functions call each other, and the third one calls them. -/
def Program.callInTurns (p q : Program) : Bool :=
  match p.routines with
  | [f,g,h] => (q.facts f).isRecursive && g.id ∈ (q.facts f).called && h.id ∉ (q.facts f).called &&
    g.id ∈ (q.facts h).called && !(q.facts h).isRecursive
  | _ => false

theorem recursiveCalls_exact : ∃ p q f g h, Runs (loadLinked recursiveCalls) { Globals.base with settings := {} } () p ∧
    Runs findCalls p () q ∧ p.routines = [f,g,h] ∧ p.Reaches f f ∧ p.Reaches f g ∧ ¬ p.Reaches f h ∧
      p.Reaches h g ∧ ¬ p.Reaches h h := by
  have chars : recursiveCalls = String.ofList _ := rfl
  have evaluated : (loadLinked recursiveCalls).succeeds { Globals.base with settings := {} } (fun _ p =>
      findCalls.succeeds p fun _ q => p.callInTurns q) := by
    rw [loadLinked,load_eq chars]
    decide +kernel
  obtain ⟨_,p,loaded,evaluated⟩ := of_succeeds evaluated
  obtain ⟨_,q,found,evaluated⟩ := of_succeeds evaluated
  unfold Program.callInTurns at evaluated
  split at evaluated
  next f g h listed =>
    simp only [Bool.and_eq_true,decide_eq_true_eq,Bool.not_eq_true'] at evaluated
    obtain ⟨⟨⟨⟨recursive,called⟩,apart⟩,indirect⟩,once⟩ := evaluated
    have exact := (call_graph_exact loaded found).1
    have node {x : Node} (hx : x ∈ p.routines) : p.node x.id = x := (callgraphable_of_runs loaded).node x hx
    have hf : f ∈ p.routines := by simp [listed]
    have hg : g ∈ p.routines := by simp [listed]
    have hh : h ∈ p.routines := by simp [listed]
    refine ⟨p,q,f,g,h,loaded,found,listed,(exact f hf).2.2.1 recursive,?_,fun reached => apart ?_,?_,
      fun reached => ?_⟩
    · exact node hg ▸ ((exact f hf).2.1 g.id).1 called
    · exact ((exact f hf).2.1 h.id).2 ((node hh).symm ▸ reached)
    · exact node hg ▸ ((exact h hh).2.1 g.id).1 indirect
    · rw [(exact h hh).2.2.2 reached] at once
      cases once
  next => cases evaluated

def callInParameter : String :=
  "contract C\x7bfunction f(uint[g()]a)public\x7b\x7dfunction g()public\x7b\x7d\x7d"

/-- A call is among the parts of the first function, and is not found. -/
def Program.missesCall (p q : Program) : Bool :=
  match p.routines with
  | [f,g] => f.preorder.any (fun m => (p.callee? m).any (·.id == g.id)) && g.id ∉ (q.facts f).called
  | _ => false

/-- Calls in the types of parameters are not found, although they are among the parts of the function. -/
theorem callInParameter_missed : ∃ p q f g, Runs (loadLinked callInParameter) { Globals.base with settings := {} } () p ∧
    Runs findCalls p () q ∧ p.routines = [f,g] ∧ (∃ m ∈ f.preorder, p.CallsAt m g) ∧ g.id ∉ (q.facts f).called := by
  have chars : callInParameter = String.ofList _ := rfl
  have evaluated : (loadLinked callInParameter).succeeds { Globals.base with settings := {} } (fun _ p =>
      findCalls.succeeds p fun _ q => p.missesCall q) := by
    rw [loadLinked,load_eq chars]
    decide +kernel
  obtain ⟨_,p,loaded,evaluated⟩ := of_succeeds evaluated
  obtain ⟨_,q,found,evaluated⟩ := of_succeeds evaluated
  have ready := callgraphable_of_runs loaded
  unfold Program.missesCall at evaluated
  split at evaluated
  next f g listed =>
    simp only [Bool.and_eq_true,any_eq_true,Option.any_eq_true,decide_eq_true_eq,beq_iff_eq] at evaluated
    obtain ⟨⟨m,hm,d,called,same⟩,missed⟩ := evaluated
    refine ⟨p,q,f,g,loaded,found,listed,⟨m,hm,?_⟩,missed⟩
    have called := Program.callsAt_iff.2 called
    rwa [← ready.node g (by simp [listed]),← same,(ready.callsAt called).1]
  next => cases evaluated

end Confidential
