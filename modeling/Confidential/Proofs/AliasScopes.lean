import Confidential.Proofs.AliasSoundness
import Confidential.Proofs.FinalVariables

/-!
The classes that are known before and after a statement are always classes of the names in scope: of the
owners that every program has, the state variables, the parameters, and the variables of the blocks and
loops around the statement.
-/

namespace Confidential

open List Node Pass Aliases

namespace Partition

variable {α : Type}

/-- The classes hold the listed elements, all of them and no others. -/
structure Spans (s : Partition α) (xs : List α) : Prop where
  proper : s.IsProper
  mem_elements : ∀ x, x ∈ s.elements ↔ x ∈ xs

namespace Spans

variable {s t : Partition α} {xs ys : List α} {x y : α}

theorem together_iff (h : s.Spans xs) (x : α) : s.Together x x ↔ x ∈ xs :=
  Partition.mem_elements.symm.trans (h.mem_elements x)

theorem of_together (proper : s.IsProper) (h : ∀ x, s.Together x x ↔ x ∈ xs) : s.Spans xs :=
  ⟨proper,fun x => Partition.mem_elements.trans (h x)⟩

theorem congr (h : s.Spans xs) (same : ∀ x, x ∈ xs ↔ x ∈ ys) : s.Spans ys :=
  ⟨h.proper,fun x => (h.mem_elements x).trans (same x)⟩

theorem insert (h : s.Spans xs) (new : x ∉ xs) : (s.insert x).Spans (x :: xs) := by
  refine of_together (h.proper.insert (mt (h.together_iff x).1 new)) fun y => ?_
  rw [together_insert,Equating.insert,h.together_iff,and_self,mem_cons,or_comm]

theorem insertAll {names : List α} (h : s.Spans xs) (nodup : names.Nodup) (new : ∀ x ∈ names, x ∉ xs) :
    (names.foldl Partition.insert s).Spans (names ++ xs) := by
  induction names generalizing s xs with
  | nil => exact h
  | cons _ _ ih =>
    rw [nodup_cons] at nodup
    rw [forall_mem_cons] at new
    refine (ih (h.insert new.1) nodup.2 fun y hy => ?_).congr fun y => ?_
    · rintro (_ | ⟨_,hy'⟩)
      · exact nodup.1 hy
      · exact new.2 y hy hy'
    · simp only [mem_append,mem_cons]
      tauto

theorem separateAll (h : s.Spans xs) (isImmutable : α → Bool) : (s.separateAll isImmutable).Spans xs := by
  refine of_together (h.proper.separateAll isImmutable) fun x => ?_
  rw [together_separateAll,Equating.separateAll,h.together_iff]
  simp

variable [DecidableEq α]

theorem join (h : s.Spans xs) (h' : t.Spans xs) : ∃ u, s.join t = .ok u ∧ u.Spans xs := by
  obtain ⟨u,joined,proper,classes⟩ :=
    h.proper.join h'.proper fun x => (h.together_iff x).trans (h'.together_iff x).symm
  refine ⟨u,joined,of_together proper fun x => ?_⟩
  rw [classes,Equating.join,h.together_iff,h'.together_iff,and_self]

theorem remove (h : s.Spans xs) (hx : x ∈ xs) : ∃ t, s.remove x = (.ok (),t) ∧ t.Spans (xs.filter (· ≠ x)) := by
  refine ⟨_,h.proper.remove_eq ((h.together_iff x).2 hx),of_together (h.proper.retain _) fun y => ?_⟩
  rw [together_remove,Equating.remove,h.together_iff,mem_filter]
  simp

end Spans
end Partition

/-! ### Outcomes without failed checks -/

/-- The outcome is as told, and a check has failed only if `blame` says why. -/
def Outcome.Keeps {α : Type} (P : α → Prop) (blame : Prop) : Outcome α → Prop
  | .ok a => P a
  | .error e => e = .violated → blame

namespace Outcome.Keeps

variable {α β : Type} {P : α → Prop} {Q : β → Prop} {blame : Prop}

variable {x : Outcome α} {as : List α}

theorem bind {f : α → Outcome β} (h : Keeps P blame x) (h' : ∀ a, P a → Keeps Q blame (f a)) :
    Keeps Q blame (x >>= f) := by
  cases x with
  | ok a => exact h' a h
  | error => exact h

theorem mapM {f : α → Outcome β} (h : ∀ a ∈ as, Keeps (fun _ => True) blame (f a)) :
    Keeps (fun _ => True) blame (as.mapM f) := by
  induction as with
  | nil => exact trivial
  | cons _ _ ih =>
    rw [forall_mem_cons] at h
    rw [mapM_cons]
    exact h.1.bind fun _ _ => (ih h.2).bind fun _ _ => trivial

theorem foldlM {f : β → α → Outcome β} (step : ∀ a ∈ as, ∀ b, Q b → Keeps Q blame (f b a)) {b : β} (hb : Q b) :
    Keeps Q blame (as.foldlM f b) := by
  induction as generalizing b with
  | nil => exact hb
  | cons _ _ ih =>
    rw [forall_mem_cons] at step
    rw [foldlM_cons]
    exact (step.1 b hb).bind fun _ => ih step.2

theorem mono {P' : α → Prop} {blame' : Prop} (h : Keeps P blame x) (imp : ∀ a, P a → P' a)
    (imp' : blame → blame') : Keeps P' blame' x := by
  cases x with
  | ok a => exact imp a h
  | error => exact imp' ∘ h

end Outcome.Keeps

namespace Program

variable {blame : Prop} (p : Program)

theorem keeps_ensureWalkable (n : Node) : Outcome.Keeps (fun _ => True) blame n.ensureWalkable := by
  unfold ensureWalkable
  repeat' split
  all_goals first | exact trivial | rintro ⟨⟩

theorem keeps_target (n : Node) : Outcome.Keeps (fun _ => True) blame (p.target n) := by
  unfold target
  repeat' split
  all_goals first | exact trivial | rintro ⟨⟩

theorem keeps_ownSideEffect (n : Node) : Outcome.Keeps (fun _ => True) blame (p.ownSideEffect n) := by
  unfold ownSideEffect
  split
  · exact trivial
  next i callee options arguments =>
    have runs : Outcome.Keeps (fun _ => True) blame (p.runsFunction callee) := by
      refine Outcome.Keeps.bind (P := fun _ => True) ?_ fun _ _ => trivial
      unfold isCast
      split
      · exact (p.keeps_target callee).bind fun _ _ => trivial
      · exact trivial
    refine runs.bind fun effective _ => ?_
    split
    · refine (p.keeps_target callee).bind fun f _ => ?_
      unfold Node.hasSideEffects
      split
      · exact trivial
      · rintro ⟨⟩
    · exact trivial
  · exact trivial

theorem keeps_hasSideEffects (n : Node) : Outcome.Keeps (fun _ => True) blame (p.hasSideEffects n) := by
  induction n with
  | step n ih =>
    rw [hasSideEffects]
    refine (keeps_ensureWalkable n).bind fun _ _ => ?_
    refine (Outcome.Keeps.mapM fun c _ => ih c.1 (part_of_child c.2)).bind fun _ _ => ?_
    exact (p.keeps_ownSideEffect n).bind fun _ _ => trivial

theorem keeps_label (n : Node) : Outcome.Keeps (fun _ => True) blame (p.label n) := by
  have general (fuel : Nat) : ∀ n, Outcome.Keeps (fun _ => True) blame (p.labelWithin fuel n) := by
    induction fuel with
    | zero => rintro _ ⟨⟩
    | succ _ ih =>
      intro n
      unfold labelWithin
      split
      · refine (p.keeps_target _).bind fun d _ => ?_
        split
        · rintro ⟨⟩
        · split
          · exact ih _
          · rintro ⟨⟩
        · split
          · exact trivial
          · rintro ⟨⟩
      · exact trivial
      · split
        · exact trivial
        · rintro ⟨⟩
  exact general _ n

end Program

namespace Aliases

variable {blame : Prop} {p : Program} {s : Partition Label} {xs : List Label}

theorem keeps_anySideEffects (ns : List Node) : Outcome.Keeps (fun _ => True) blame (anySideEffects p ns) := by
  induction ns with
  | nil => exact trivial
  | cons n _ ih =>
    refine (p.keeps_hasSideEffects n).bind fun effect _ => ?_
    cases effect with
    | true => exact trivial
    | false => exact ih

theorem keeps_guard (h : s.Spans xs) (n : Node) : Outcome.Keeps (·.Spans xs) blame (guard n s) := by
  induction n generalizing s with
  | step n ih =>
    rw [guard.eq_def]
    split
    · split
      · rintro ⟨⟩
      · exact h
    · exact h
    · refine (Program.keeps_ensureWalkable n).bind fun _ _ => Outcome.Keeps.foldlM (fun c _ t ht => ?_) h
      exact ih c.1 (part_of_child c.2) ht

theorem keeps_whenTrue (h : s.Spans xs) (n : Node) : Outcome.Keeps (·.Spans xs) blame (whenTrue p n s) := by
  refine (p.keeps_hasSideEffects n).bind fun effect _ => ?_
  cases effect with
  | true => exact h.separateAll _
  | false => exact keeps_guard h n

theorem keeps_whenFalse (h : s.Spans xs) (n : Node) : Outcome.Keeps (·.Spans xs) blame (whenFalse p n s) := by
  unfold whenFalse
  split
  · rintro ⟨⟩
  · refine (p.keeps_hasSideEffects n).bind fun effect _ => ?_
    cases effect with
    | true => exact h.separateAll _
    | false => rintro ⟨⟩

theorem keeps_merge (h : s.Spans xs) (x y : Label) : Outcome.Keeps (·.Spans xs) blame (settled (s.merge x y)) := by
  by_cases hx : s.Together x x
  · by_cases hy : s.Together y y
    · obtain ⟨t,merged,proper,classes⟩ := h.proper.merge hx hy
      rw [merged]
      refine .of_together proper fun a => ?_
      rw [classes,Equating.merge_iff (r := s.Together) .symm h.proper.trans hx hy]
      have left {b c : Label} (together : s.Together b c) : b ∈ xs := (h.together_iff b).1 together.left
      rw [h.together_iff,and_self,or_iff_left_of_imp]
      rintro (known | known) <;> exact left known
    · have absent : s.index? y = none := by simpa [Partition.has] using (not_congr Partition.has_iff).2 hy
      have present : (s.index? x).isSome := Partition.has_iff.2 hx
      obtain ⟨i,found⟩ := Option.isSome_iff_exists.1 present
      simp only [Partition.merge,absent,found]
      rintro ⟨⟩
  · have absent : s.index? x = none := by simpa [Partition.has] using (not_congr Partition.has_iff).2 hx
    cases found : s.index? y with
    | none =>
      simp only [Partition.merge,absent,found]
      exact h
    | some =>
      simp only [Partition.merge,absent,found]
      rintro ⟨⟩

theorem keeps_moveTo (h : s.Spans xs) (x y : Label) :
    Outcome.Keeps (·.Spans xs) (x ∉ xs ∧ y ≠ x) (settled (s.moveTo x y)) := by
  by_cases same : x = y
  · have stays : s.moveTo x y = (.ok (),s) := by simp [Partition.moveTo,Partition.samePart,same]
    rw [stays]
    exact h
  · by_cases hx : s.Together x x
    · cases moved : settled (s.moveTo x y) with
      | ok =>
        obtain ⟨-,hy⟩ := present_of_moveTo h.proper same moved
        obtain ⟨proper,classes⟩ := together_moveTo h.proper same moved
        refine .of_together proper fun a => ?_
        rw [classes,Equating.moveTo,Equating.remove,h.together_iff]
        have left (known : s.Together a y) : a ∈ xs := (h.together_iff a).1 known.left
        have here : a = x → a ∈ xs := fun eq => eq ▸ (h.together_iff x).1 hx
        tauto
      | error =>
        rintro rfl
        unfold Partition.moveTo at moved
        rw [h.proper.remove_eq hx] at moved
        split at moved
        · cases moved
        · dsimp only at moved
          split at moved <;> cases moved
    · cases moved : settled (s.moveTo x y) with
      | ok => exact absurd (present_of_moveTo h.proper same moved).1 hx
      | error => exact fun _ => ⟨mt (h.together_iff x).2 hx,Ne.symm same⟩

def StoresOutside (p : Program) (left right : Node) (xs : List Label) : Prop :=
  ∃ st ∈ stores p.named? left right, st.place ∉ xs ∧ ∃ y, st.source = some y ∧ y ≠ st.place

theorem keeps_assign (h : s.Spans xs) (left right : Node) :
    Outcome.Keeps (·.Spans xs) (StoresOutside p left right xs) (assign p left right s) := by
  unfold StoresOutside
  fun_induction stores p.named? left right generalizing s with
  | case1 _ _ _ _ ih =>
    rw [assign]
    refine Outcome.Keeps.foldlM (fun x hx t ht => ?_) h
    refine (ih x.1.1 x.1.2 x.2 ht).mono (fun _ => id) ?_
    rintro ⟨st,hst,outside⟩
    exact ⟨st,mem_flatMap.2 ⟨x,hx,hst⟩,outside⟩
  | case2 _ _ right single =>
    rw [assign.eq_2 _ _ _ _ (fun _ _ _ rs _ eq => single _ rs eq),label_tuple]
    exact (p.keeps_label right).bind fun _ _ => h
  | case3 left right _ alone =>
    rw [assign.eq_2 _ _ _ _ (fun i ls _ _ eq _ => alone i ls eq)]
    have first : Outcome.Keeps (p.label left = .ok ·) False (p.label left) := by
      have := @Program.keeps_label False p left
      cases labelled : p.label left with
      | ok => exact rfl
      | error => rwa [labelled] at this
    have second : Outcome.Keeps (p.label right = .ok ·) False (p.label right) := by
      have := @Program.keeps_label False p right
      cases labelled : p.label right with
      | ok => exact rfl
      | error => rwa [labelled] at this
    refine (first.mono (fun _ => id) False.elim).bind fun x labelled => ?_
    refine (second.mono (fun _ => id) False.elim).bind fun y labelled' => ?_
    split
    next x y =>
      refine (keeps_moveTo h x y).mono (fun _ => id) fun outside => ⟨⟨x,some y⟩,?_,outside.1,y,rfl,outside.2⟩
      simp [Program.named?,labelled,labelled']
    next => exact h

end Aliases

/-! ### Names in scope -/

namespace Node

/-- The parts of a node that declare names for the statements inside of it: the state variables of a contract, the
parameters of a function, and what a block or the start of a loop declares. -/
def declarers (n : Node) : List Node :=
  match n with
  | .contract .. => n.stateVariables
  | .function _ _ parameters _ _ _ _ => parameters.getD []
  | .statements _ (.block _) _ | .forLoop .. => n.children.filter isVariableStatement
  | _ => []

def declaredLabel (n : Node) : Label :=
  .identifier ((n.local?.getD n).nameId)

/-- The names that can be used inside of the given nodes: what they declare, and the owners that every program has. -/
def inScope (around : List Node) : List Label :=
  around.flatMap (fun n => n.declarers.map declaredLabel) ++ [.owner .me,.owner .all,.owner .tee]

theorem inScope_cons (n : Node) (around : List Node) :
    inScope (n :: around) = n.declarers.map declaredLabel ++ inScope around := by
  rw [inScope,flatMap_cons,append_assoc]
  rfl

def IsClear (n : Node) (around : List Node) : Prop :=
  ∀ k ∈ n.numbers, Label.identifier k ∉ inScope around

theorem declarers_sublist (n : Node) : n.declarers.Sublist n.parts := by
  cases n with
  | contract => exact filter_sublist.trans (units_sublist _)
  | function =>
    simp only [declarers,parts,cons_append,append_assoc]
    exact (sublist_append_left _ _).trans (sublist_cons_self _ _)
  | statements _ kind =>
    cases kind <;> first | exact nil_sublist _ | exact filter_sublist.trans (children_sublist _)
  | forLoop => exact filter_sublist.trans (children_sublist _)
  | _ => exact nil_sublist _

end Node

theorem Lists.mem_numbers {d : Node} {e : String × Nat} (h : Lists d e) : e.2 ∈ d.numbers := by
  obtain ⟨i,named,eq⟩ := h
  rw [← eq]
  exact number_mem (mem_subtrees.2 (.inr ⟨_,ownName_mem_parts named,self_mem⟩)) rfl

namespace LinkedSource

variable {p : Program} {first : Nat} {root : Node} (h : LinkedSource p first root) {n : Node} {around : List Node}
  (path : Path root around n)

variable {d : Node}
include h path

theorem own_of_role (role : n.role ∈ [.block,.loop,.routine,.contract]) : Own p n := by
  obtain own | ⟨carrier,-⟩ := h.tabled n path.mem_preorder fun eq => absurd (eq ▸ role) (by decide)
  · exact own
  · exfalso
    generalize n.role = r at role carrier
    revert r
    decide

theorem names_of_steps (role : n.role = .block ∨ n.role = .loop) : ∃ t es, p.names n = .ok t ∧
    Forall₂ Lists (n.children.filterMap local?) es ∧ t.Sublist es ∧ (∀ e ∈ es, e ∈ t) ∧
    n.declarers = n.children.filter isVariableStatement := by
  have own := h.own_of_role path (by rcases role with role | role <;> simp [role])
  cases n with
  | declaration _ kind => cases kind <;> simp [Node.role,DeclKind.role] at role
  | statements _ kind =>
    cases kind with
    | block =>
      obtain ⟨t,names,-,es,lists,sub,all⟩ := own
      exact ⟨t,es,by rw [Program.names,names],lists,sub,all,rfl⟩
    | _ => simp [Node.role,ListKind.role] at role
  | forLoop =>
    obtain ⟨t,names,-,es,lists,sub,all⟩ := own
    exact ⟨t,es,by rw [Program.names,names],lists,sub,all,rfl⟩
  | _ => simp [Node.role] at role

theorem lists_of_declarer (hd : d ∈ n.declarers) : ∃ e, Lists (d.local?.getD d) e := by
  have steps (role : n.role = .block ∨ n.role = .loop) : ∃ e, Lists (d.local?.getD d) e := by
    obtain ⟨-,es,-,lists,-,-,eq⟩ := h.names_of_steps path role
    obtain ⟨child,kind⟩ := mem_filter.1 (eq ▸ hd)
    cases d with
    | variableStatement =>
      obtain ⟨e,-,listed⟩ := forall₂_exists_of_mem lists (mem_filterMap.2 ⟨_,child,rfl⟩)
      exact ⟨e,listed⟩
    | _ => cases kind
  have alone (named : (∃ e, Lists d e)) : ∃ e, Lists (d.local?.getD d) e := by
    obtain ⟨e,i,named,same⟩ := named
    refine ⟨e,i,?_,same⟩
    cases d <;> first | exact named | cases named
  cases n with
  | contract =>
    exact alone ((h.own_of_role path (by simp [Node.role])).2 d (mem_append_left _ hd))
  | function =>
    exact alone ((h.own_of_role path (by simp [Node.role])).2 d hd)
  | statements _ kind =>
    cases kind with
    | block => exact steps (.inl rfl)
    | _ => cases hd
  | forLoop => exact steps (.inr rfl)
  | _ => cases hd

theorem declaredLabel_mem (hd : d ∈ n.declarers) : ∃ k ∈ d.numbers, d.declaredLabel = .identifier k := by
  obtain ⟨e,listed⟩ := h.lists_of_declarer path hd
  refine ⟨e.2,?_,congrArg Label.identifier listed.nameId⟩
  cases d with
  | variableStatement _ decl =>
    exact (numbers_sublist (mem_subtrees.2 (.inr ⟨decl,by simp [parts],self_mem⟩))).subset
      listed.mem_numbers
  | _ => exact listed.mem_numbers

theorem apart_parts : n.parts.Pairwise fun a b => List.Disjoint a.numbers b.numbers :=
  (nodup_flatMap.1 (nodup_parts path h.holds.nodup)).2

theorem nodup_declared : (n.declarers.map declaredLabel).Nodup := by
  refine pairwise_map.2 (((h.apart_parts path).sublist n.declarers_sublist).imp_of_mem fun ha hb apart same => ?_)
  obtain ⟨j,hj,eq⟩ := h.declaredLabel_mem path ha
  obtain ⟨k,hk,eq'⟩ := h.declaredLabel_mem path hb
  rw [eq,eq'] at same
  cases same
  exact apart hj hk

theorem declared_new (clear : n.IsClear around) {x : Label} (hx : x ∈ n.declarers.map declaredLabel) : x ∉ inScope around := by
  obtain ⟨d,hd,rfl⟩ := mem_map.1 hx
  obtain ⟨k,hk,eq⟩ := h.declaredLabel_mem path hd
  rw [eq]
  refine clear k ((numbers_sublist ?_).subset hk)
  exact mem_subtrees.2 (.inr ⟨d,n.declarers_sublist.subset hd,self_mem⟩)

theorem isClear_child (clear : n.IsClear around) {c : Node} (hc : c ∈ n.children) (other : c ∉ n.declarers) :
    c.IsClear (n :: around) := by
  have part := part_of_child hc
  intro k hk
  rw [inScope_cons,mem_append,not_or]
  constructor
  · intro declared
    obtain ⟨d,hd,eq⟩ := mem_map.1 declared
    obtain ⟨j,hj,eq'⟩ := h.declaredLabel_mem path hd
    rw [eq',Label.identifier.injEq] at eq
    have : Std.Symm fun a b : Node => List.Disjoint a.numbers b.numbers := ⟨fun _ _ => List.Disjoint.symm⟩
    exact (h.apart_parts path).forall (n.declarers_sublist.subset hd) part (fun eq => other (eq ▸ hd)) hj (eq ▸ hk)
  · exact clear k ((numbers_sublist (mem_subtrees.2 (.inr ⟨c,part,self_mem⟩))).subset hk)

theorem names_eq (role : n.role = .block ∨ n.role = .loop) : ∃ t, p.names n = .ok t ∧
    (t.map fun e => Label.identifier e.2).Nodup ∧
    ∀ x, x ∈ (t.map fun e => Label.identifier e.2) ↔ x ∈ n.declarers.map declaredLabel := by
  obtain ⟨t,es,names,lists,sub,all,eq⟩ := h.names_of_steps path role
  have same : es.map (fun e => Label.identifier e.2) = n.declarers.map declaredLabel := by
    have locals (cs : List Node) : (cs.filterMap local?).map (fun d => Label.identifier d.nameId) =
        (cs.filter isVariableStatement).map declaredLabel := by
      induction cs with
      | nil => rfl
      | cons c _ ih =>
        cases c with
        | variableStatement => exact congrArg (List.cons _) ih
        | _ => exact ih
    rw [eq,← locals]
    clear sub all
    generalize n.children.filterMap local? = ds at lists
    induction lists with
    | nil => rfl
    | cons listed _ ih => rw [map_cons,map_cons,ih,listed.nameId]
  refine ⟨t,names,?_,fun x => ?_⟩
  · exact (same ▸ h.nodup_declared path).sublist (sub.map _)
  · rw [← same]
    exact ⟨fun hx => (sub.map _).subset hx,fun hx => by
      obtain ⟨e,he,rfl⟩ := mem_map.1 hx
      exact mem_map_of_mem (all e he)⟩

end LinkedSource

/-! ### Steps of the analysis -/

namespace Pass

/-- However the step ends, `I` holds. Its result is as told, and a check has failed only if `blame` says why. -/
def Ensures {α : Type} (I : Program → Prop) (blame : Prop) (Q : α → Program → Prop) (x : Pass α) (p : Program) : Prop :=
  I (x.run p).2 ∧ Outcome.Keeps (Q · (x.run p).2) blame (x.run p).1

namespace Ensures

variable {α β : Type} {I : Program → Prop} {blame : Prop} {Q : α → Program → Prop} {R : β → Program → Prop} {p : Program}

variable {x : Pass α} {n : Node}

theorem bind {f : α → Pass β} (h : Ensures I blame Q x p)
    (h' : ∀ a q, I q → Q a q → Ensures I blame R (f a) q) : Ensures I blame R (x >>= f) p := by
  unfold Ensures at h ⊢
  rw [run_bind]
  generalize x.run p = ended at h ⊢
  obtain ⟨r,q⟩ := ended
  cases r with
  | ok a => exact h' a q h.1 h.2
  | error => exact h

theorem pure {a : α} (inv : I p) (h : Q a p) : Ensures I blame Q (Pure.pure a) p :=
  ⟨inv,h⟩

theorem throw {e : Fault} (inv : I p) (other : e ≠ .violated) : Ensures I blame Q (throw e) p :=
  ⟨inv,fun eq => absurd eq other⟩

theorem get {Q : Program → Program → Prop} (inv : I p) (h : Q p p) : Ensures I blame Q get p :=
  ⟨inv,h⟩

theorem ofOutcome {r : Outcome α} (inv : I p) (h : Outcome.Keeps (Q · p) blame r) : Ensures I blame Q (ofOutcome r) p :=
  ⟨inv,h⟩

theorem ask {f : Program → Outcome α} (inv : I p) (h : Outcome.Keeps (Q · p) blame (f p)) : Ensures I blame Q (ask f) p := by
  unfold Ensures
  rw [run_ask]
  exact ⟨inv,h⟩

theorem before {Q : Partition Label → Program → Prop} (inv : I p) (h : ∀ s, p.before[n.id]? = some s → Q s p) :
    Ensures I blame Q (before n) p := by
  refine bind (Q := fun q q' => q = p ∧ q' = p) (get inv ⟨rfl,rfl⟩) ?_
  rintro _ _ - ⟨rfl,rfl⟩
  split
  next s found => exact pure inv (h s found)
  next => exact throw inv (by simp)

theorem after {Q : Partition Label → Program → Prop} (inv : I p) (h : ∀ s, p.after[n.id]? = some s → Q s p) :
    Ensures I blame Q (after n) p := by
  refine bind (Q := fun q q' => q = p ∧ q' = p) (get inv ⟨rfl,rfl⟩) ?_
  rintro _ _ - ⟨rfl,rfl⟩
  split
  next s found => exact pure inv (h s found)
  next => exact throw inv (by simp)

theorem foldlM {as : List α} {f : β → α → Pass β} {J : β → Prop}
    (step : ∀ a ∈ as, ∀ b, J b → ∀ q, I q → Ensures I blame (fun b _ => J b) (f b a) q) {b : β} (hb : J b) (inv : I p) :
    Ensures I blame (fun b _ => J b) (as.foldlM f b) p := by
  induction as generalizing b p with
  | nil => exact pure inv hb
  | cons _ _ ih =>
    rw [forall_mem_cons] at step
    rw [foldlM_cons]
    exact (step.1 b hb p inv).bind fun b q inv hb => ih step.2 hb inv

theorem mono {Q' : α → Program → Prop} (h : Ensures I blame Q x p) (imp : ∀ a q, I q → Q a q → Q' a q) :
    Ensures I blame Q' x p :=
  ⟨h.1,h.2.mono (imp · _ h.1) id⟩

end Ensures

variable {n : Node} {q : Program} {s : Partition Label}

theorem run_dropAfter_cons {x : Label} {t : Partition Label} (found : q.after[n.id]? = some s)
    (removed : s.remove x = (.ok (),t)) (names : List Label) :
    (dropAfter n (x :: names)).run q = (dropAfter n names).run { q with after := q.after.insert n.id t } := by
  have read : (after n).run q = (.ok s,q) := by
    unfold after
    rw [run_bind,show (get : Pass Program).run q = (.ok q,q) from rfl]
    dsimp only
    rw [found]
    rfl
  rw [show dropAfter n (x :: names) = _ >>= fun _ => dropAfter n names from rfl,run_bind,run_bind,read]
  dsimp only
  rw [removed]
  rfl

theorem run_dropAfter {names xs : List Label}
    (found : q.after[n.id]? = some s) (spans : s.Spans (names ++ xs)) (nodup : names.Nodup) (new : ∀ x ∈ names, x ∉ xs) :
    ∃ t table, (dropAfter n names).run q = (.ok (),{ q with after := table }) ∧ t.Spans xs ∧ table[n.id]? = some t ∧
      ∀ k, k ≠ n.id → table[k]? = q.after[k]? := by
  induction names generalizing q s with
  | nil => exact ⟨s,q.after,rfl,spans,found,fun _ _ => rfl⟩
  | cons _ names ih =>
    rw [nodup_cons] at nodup
    rw [forall_mem_cons] at new
    obtain ⟨t,removed,spans⟩ := spans.remove mem_cons_self
    have spans : t.Spans (names ++ xs) := by
      refine spans.congr fun y => ?_
      simp only [cons_append,mem_filter,mem_cons,mem_append,decide_eq_true_eq]
      constructor
      · rintro ⟨eq | known,ne⟩
        · exact absurd eq ne
        · exact known
      · rintro (known | known)
        · exact ⟨.inr (.inl known),fun eq => nodup.1 (eq ▸ known)⟩
        · exact ⟨.inr (.inr known),fun eq => new.1 (eq ▸ known)⟩
    obtain ⟨u,table,run,spans,last,others⟩ :=
      @ih { q with after := q.after.insert n.id t } t Std.TreeMap.getElem?_insert_self spans nodup.2 new.2
    refine ⟨u,table,?_,spans,last,fun k ne => (others k ne).trans ?_⟩
    · rw [run_dropAfter_cons found removed,run]
    · simp [Std.TreeMap.getElem?_insert,Ne.symm ne]

end Pass

/-! ### Functions -/

/-- A function of a linked source, inside of the nodes `outer`. -/
structure Site where
  p : Program
  root : Node
  f : Node
  outer : List Node
  first : Nat
  linked : LinkedSource p first root
  host : Path root outer f

variable {n : Node}

theorem Node.Path.append {root f : Node} {inner outer : List Node} (path : Path root outer f) (path' : Path f inner n) :
    Path root (inner ++ outer) n := by
  induction path' with
  | root => exact path
  | child _ hc ih => exact ih.child hc

theorem Node.isOmitted_iff_role : n.isOmitted ↔ n.role = .empty := by
  cases n with
  | declaration _ kind => cases kind <;> simp [isOmitted,role,DeclKind.role]
  | statements _ kind => cases kind <;> simp [isOmitted,role,ListKind.role]
  | _ => simp [isOmitted,role]

/-- Some assignment in a function stores the value of a name for one that is not in scope. -/
def StoresOutsideWithin (p : Program) (f : Node) (outer : List Node) : Prop :=
  ∃ inner i c left right op, Path f inner (.assign i c left right op) ∧ StoresOutside p left right (inScope (inner ++ outer))

namespace Site

variable (S : Site) {n : Node} {inner : List Node} {q : Program}

def scope (inner : List Node) : List Label :=
  inScope (inner ++ S.outer)

theorem scope_cons : S.scope (n :: inner) = n.declarers.map declaredLabel ++ S.scope inner :=
  inScope_cons n (inner ++ S.outer)

theorem scope_bare (bare : n.declarers = []) : S.scope (n :: inner) = S.scope inner := by
  rw [scope_cons,bare]
  rfl

/-- The program with states of statements, all of them of names in scope. -/
structure Sound (q : Program) : Prop where
  same : q = { S.p with before := q.before, after := q.after }
  before : ∀ inner n, Path S.f inner n → n.isLeaflet = false → ∀ s, q.before[n.id]? = some s →
    s.Spans (S.scope inner) ∨ n.isForLoop = true ∧ s.Spans (S.scope (n :: inner))
  after : ∀ inner n, Path S.f inner n → n.isLeaflet = false → ∀ s, q.after[n.id]? = some s → s.Spans (S.scope inner)
  omitted : q.after[omitted.id]? = none

/-- A step of the analysis that keeps all states in scope. -/
abbrev Proceeds {α : Type} (Q : α → Program → Prop) (x : Pass α) (q : Program) : Prop :=
  Ensures S.Sound (StoresOutsideWithin S.p S.f S.outer) Q x q

structure Enters (inner : List Node) (n : Node) : Prop where
  path : Path S.f inner n
  statement : n.isStatement = true
  named : n.isVariableStatement = true → n.declaredLabel ∈ S.scope inner
  clear : n.isVariableStatement = false → n.IsClear (inner ++ S.outer)

def Knows (inner : List Node) (n : Node) (q : Program) : Prop :=
  ∃ s, q.before[n.id]? = some s ∧ s.Spans (S.scope inner)

/-- The analysis of `n` keeps all states in scope, and leaves a state behind. -/
def Covered (inner : List Node) (n : Node) : Prop :=
  ∀ q, S.Sound q → S.Knows inner n q → S.Proceeds (fun _ q' => ∃ t, q'.after[n.id]? = some t) (findAliases n) q

variable {S}

theorem Enters.solid (h : S.Enters inner n) : n.isLeaflet = false :=
  isLeaflet_of h.statement fun _ => rfl

theorem place_unique {m : Node} {inner' : List Node} (path : Path S.f inner n) (path' : Path S.f inner' m)
    (solid : n.isLeaflet = false) (solid' : m.isLeaflet = false) (same : m.id = n.id) : m = n ∧ inner' = inner := by
  have path := S.host.append path
  have path' := S.host.append path'
  obtain rfl := eq_of_id S.linked.holds.nodup path'.mem_subtrees path.mem_subtrees solid' solid same
  have around := (S.linked.holds.ancestors_eq path' solid').symm.trans (S.linked.holds.ancestors_eq path solid)
  exact ⟨rfl,append_cancel_right around⟩

section Storing

variable {s : Partition Label} (path : Path S.f inner n) (solid : n.isLeaflet = false) (inv : S.Sound q)
include path solid inv

theorem proceeds_setBefore (spans : s.Spans (S.scope inner) ∨ n.isForLoop ∧ s.Spans (S.scope (n :: inner))) :
    S.Proceeds (fun _ q' => q'.before[n.id]? = some s) (setBefore n s) q := by
  have present : n.isOmitted = false := by
    cases n <;> first | rfl | cases solid
  have sound : S.Sound { q with before := q.before.insert n.id s } := by
    refine ⟨by rw [inv.same],fun inner' m path' solid' t found => ?_,inv.after,inv.omitted⟩
    by_cases same : m.id = n.id
    · obtain ⟨rfl,rfl⟩ := place_unique path path' solid solid' same
      cases Std.TreeMap.getElem?_insert_self.symm.trans found
      exact spans
    · exact inv.before inner' m path' solid' t (by simpa [Std.TreeMap.getElem?_insert,Ne.symm same] using found)
  unfold setBefore
  rw [present]
  exact ⟨sound,Std.TreeMap.getElem?_insert_self⟩

theorem sound_after {table : Table (Partition Label)} (found : table[n.id]? = some s) (spans : s.Spans (S.scope inner))
    (others : ∀ k, k ≠ n.id → table[k]? = q.after[k]?) : S.Sound { q with after := table } where
  same := by rw [inv.same]
  before := inv.before
  after inner' m path' solid' t found' := by
    by_cases same : m.id = n.id
    · obtain ⟨rfl,rfl⟩ := place_unique path path' solid solid' same
      cases found.symm.trans found'
      exact spans
    · exact inv.after inner' m path' solid' t ((others m.id same).symm.trans found')
  omitted := by
    have range := S.linked.holds.range n (S.host.append path).mem_subtrees solid
    exact (others _ (Nat.ne_of_lt (S.linked.holds.pos.trans_le range.1))).trans inv.omitted

theorem proceeds_setAfter (spans : s.Spans (S.scope inner)) :
    S.Proceeds (fun _ q' => ∃ t, q'.after[n.id]? = some t) (setAfter n s) q := by
  refine ⟨sound_after path solid inv Std.TreeMap.getElem?_insert_self spans fun k ne => ?_,
    s,Std.TreeMap.getElem?_insert_self⟩
  simp [Std.TreeMap.getElem?_insert,Ne.symm ne]

theorem proceeds_dropAfter {names : List Label} (spans : s.Spans (names ++ S.scope inner)) (nodup : names.Nodup)
    (new : ∀ x ∈ names, x ∉ S.scope inner) :
    S.Proceeds (fun _ q' => ∃ t, q'.after[n.id]? = some t) (setAfter n s >>= fun _ => dropAfter n names) q := by
  obtain ⟨t,table,run,spans,found,others⟩ :=
    @run_dropAfter n { q with after := q.after.insert n.id s } s names _ Std.TreeMap.getElem?_insert_self spans nodup new
  have whole : (setAfter n s >>= fun _ => dropAfter n names).run q = (.ok (),{ q with after := table }) := by
    rw [run_bind]
    exact run
  unfold Proceeds Ensures
  rw [whole]
  refine ⟨sound_after path solid inv found spans fun k ne => (others k ne).trans ?_,t,found⟩
  simp [Std.TreeMap.getElem?_insert,Ne.symm ne]

theorem proceeds_after : S.Proceeds (fun s q' => s.Spans (S.scope inner) ∧ q' = q) (after n) q :=
  .after inv fun s found => ⟨inv.after _ n path solid s found,rfl⟩

theorem proceeds_visit {α : Type} {R : α → Program → Prop} {rest : Pass α} (spans : s.Spans (S.scope inner))
    (visit : ∀ q, S.Sound q → S.Knows inner n q → S.Proceeds (fun _ _ => True) (findAliases n) q)
    (next : ∀ q, S.Sound q → S.Proceeds R rest q) :
    S.Proceeds R (setBefore n s >>= fun _ => findAliases n >>= fun _ => rest) q :=
  (proceeds_setBefore path solid inv (.inl spans)).bind fun _ q inv found =>
    (visit q inv ⟨s,found,spans⟩).bind fun _ q inv _ => next q inv

end Storing

theorem proceeds_declared {t : Names} (names : S.p.names n = .ok t) (inv : S.Sound q) :
    S.Proceeds (fun ns q' => ns = t.map (fun e => Label.identifier e.2) ∧ q' = q) (declared n) q := by
  refine Ensures.bind (Q := fun u q' => u = t ∧ q' = q) (.ask inv ?_) ?_
  · have same : q.names n = .ok t := by
      rw [inv.same]
      exact names
    rw [same]
    exact ⟨rfl,rfl⟩
  · rintro _ _ - ⟨rfl,rfl⟩
    exact .pure inv ⟨rfl,rfl⟩

theorem proceeds_before (inv : S.Sound q) (known : S.Knows inner n q) :
    S.Proceeds (fun s q' => s.Spans (S.scope inner) ∧ q' = q) (before n) q := by
  obtain ⟨s,found,spans⟩ := known
  exact .before inv fun t found' => ⟨Option.some.inj (found.symm.trans found') ▸ spans,rfl⟩

theorem proceeds_ask {xs : List Label} {g : Program → Outcome (Partition Label)} (inv : S.Sound q)
    (h : Outcome.Keeps (·.Spans xs) (StoresOutsideWithin S.p S.f S.outer) (g q)) :
    S.Proceeds (fun s q' => s.Spans xs ∧ q' = q) (ask g) q :=
  .ask inv (h.mono (fun _ spans => ⟨spans,rfl⟩) id)

variable {i : Info} {c : Node} {s : Partition Label}

theorem proceeds_join {xs : List Label} {t : Partition Label} (inv : S.Sound q) (h : s.Spans xs) (h' : t.Spans xs) :
    S.Proceeds (fun u q' => u.Spans xs ∧ q' = q) (ofOutcome (s.join t)) q := by
  obtain ⟨u,joined,spans⟩ := h.join h'
  rw [joined]
  exact .ofOutcome inv ⟨spans,rfl⟩

theorem proceeds_start (enters : S.Enters inner n) {α : Type} {R : α → Program → Prop} {rest : Partition Label → Pass α}
    {parts : List Node} (inv : S.Sound q) (known : S.Knows inner n q)
    (next : ∀ s q, S.Sound q → s.Spans (S.scope inner) → S.Proceeds R (rest s) q) :
    S.Proceeds R (forgetBefore n parts >>= fun _ => before n >>= rest) q := by
  refine Ensures.bind (Q := fun _ q' => S.Knows inner n q') ?_ fun _ q inv known => (proceeds_before inv known).bind ?_
  · obtain ⟨s,found,spans⟩ := known
    refine Ensures.bind (Q := fun _ q' => q = q') (.ask inv ((keeps_anySideEffects parts).mono (fun _ _ => rfl) id)) ?_
    rintro effects _ - rfl
    cases effects with
    | false => exact .pure inv ⟨s,found,spans⟩
    | true =>
      refine Ensures.bind (Q := fun _ q' => q = q') (.get inv rfl) ?_
      rintro r _ - rfl
      refine Ensures.bind (Q := fun t q' => s = t ∧ q = q')
        (.before inv fun t found' => ⟨Option.some.inj (found.symm.trans found'),rfl⟩) ?_
      rintro _ _ - ⟨rfl,rfl⟩
      exact (proceeds_setBefore enters.path enters.solid inv (.inl (spans.separateAll _))).mono fun _ _ _ found' =>
        ⟨_,found',spans.separateAll _⟩
  · rintro s _ - ⟨spans,rfl⟩
    exact next s _ inv spans

theorem Enters.step (enters : S.Enters inner n) (role : n.role = .block ∨ n.role = .loop) (hc : c ∈ n.children)
    (statement : c.isStatement) : S.Enters (n :: inner) c := by
  have path := S.host.append enters.path
  obtain ⟨-,-,-,-,-,-,declarers⟩ := S.linked.names_of_steps path role
  refine ⟨enters.path.child hc,statement,fun var => ?_,fun plain => ?_⟩
  · rw [scope_cons]
    refine mem_append_left _ (mem_map_of_mem ?_)
    rw [declarers]
    exact mem_filter.2 ⟨hc,var⟩
  · refine S.linked.isClear_child path (enters.clear ?_) hc fun declares => ?_
    · cases n <;> first | rfl | simp [Node.role] at role
    · rw [declarers] at declares
      exact absurd ((mem_filter.1 declares).2.symm.trans plain) (by simp)

theorem Enters.block (enters : S.Enters inner n) (plain : n.isVariableStatement = false) (bare : n.declarers = [])
    (part : c ∈ n.visited) (role : c.role = .block) : c ∈ n.children ∧ S.Enters (n :: inner) c := by
  have kind : c.isVariableStatement = false ∧ c.isOmitted = false := by
    cases c <;> first | exact ⟨rfl,rfl⟩ | simp [Node.role] at role
  have hc : c ∈ n.children := mem_filter.2 ⟨part,by simp [kind.2]⟩
  refine ⟨hc,enters.path.child hc,isStatement_of_role (by rw [role]; decide),fun var => ?_,fun _ => ?_⟩
  · rw [kind.1] at var
    cases var
  · exact S.linked.isClear_child (S.host.append enters.path) (enters.clear plain) hc (by simp [bare])

/-! ### Statements with statements inside -/

theorem proceeds_through {α : Type} {R : α → Program → Prop} {rest : Partition Label → Pass α}
    (inside : ∀ c ∈ n.children, S.Enters (n :: inner) c → S.Covered (n :: inner) c) (hc : c ∈ n.children)
    (step : S.Enters (n :: inner) c) (spans : s.Spans (S.scope (n :: inner))) (inv : S.Sound q)
    (next : ∀ t q, S.Sound q → t.Spans (S.scope (n :: inner)) → S.Proceeds R (rest t) q) :
    S.Proceeds R (setBefore c s >>= fun _ => findAliases c >>= fun _ => after c >>= rest) q := by
  refine proceeds_visit step.path step.solid inv spans (fun q inv known => (inside c hc step q inv known).mono fun _ _ _ _ =>
    trivial) fun q inv => (proceeds_after step.path step.solid inv).bind ?_
  rintro t _ inv ⟨spans,rfl⟩
  exact next t _ inv spans

theorem names_inside (enters : S.Enters inner n) (role : n.role = .block ∨ n.role = .loop) : ∃ t, S.p.names n = .ok t ∧
    (t.map fun e => Label.identifier e.2).Nodup ∧ (∀ x ∈ t.map (fun e => Label.identifier e.2), x ∉ S.scope inner) ∧
    ∀ x, x ∈ t.map (fun e => Label.identifier e.2) ++ S.scope inner ↔ x ∈ S.scope (n :: inner) := by
  have path := S.host.append enters.path
  have plain : n.isVariableStatement = false := by
    cases n <;> first | rfl | simp [Node.role] at role
  obtain ⟨t,names,nodup,same⟩ := S.linked.names_eq path role
  refine ⟨t,names,nodup,fun x hx => S.linked.declared_new path (enters.clear plain) ((same x).1 hx),fun x => ?_⟩
  rw [scope_cons,mem_append,mem_append,same]

section Inside

variable (enters : S.Enters inner n) (inside : ∀ c ∈ n.children, S.Enters (n :: inner) c → S.Covered (n :: inner) c)
include enters inside

theorem covered_block (role : n.role = .block) : S.Covered inner n := by
  intro q inv known
  obtain ⟨t,names,nodup,new,scope⟩ := names_inside enters (.inl role)
  cases n with
  | statements i kind body =>
    have block : (Node.statements i kind body).isBlock := by
      cases kind <;> first | rfl | simp [Node.role,ListKind.role] at role
    rw [findAliases]
    refine (proceeds_before inv known).bind ?_
    rintro start _ - ⟨spans,rfl⟩
    dsimp only
    rw [if_pos block]
    refine (proceeds_declared names inv).bind ?_
    rintro _ _ - ⟨rfl,rfl⟩
    refine Ensures.bind (Q := fun s _ => s.Spans (S.scope (.statements i kind body :: inner))) ?_
      fun last q inv spans => proceeds_dropAfter enters.path rfl inv (spans.congr fun x => (scope x).symm) nodup new
    refine .foldlM (J := fun s : Partition Label => s.Spans (S.scope (.statements i kind body :: inner)))
      (fun part _ last spans q inv => ?_) ((spans.insertAll nodup new).congr scope) inv
    obtain ⟨c,hc⟩ := part
    have below := (isProper_iff.1 ((S.host.append enters.path).proper S.linked.proper)).1 c hc
    rw [role] at below
    have statement : c.isStatement := isStatement_of_role below
    have child : c ∈ (Node.statements i kind body).children :=
      mem_filter.2 ⟨hc,by cases c <;> first | rfl | cases statement⟩
    have through : S.Proceeds (fun s _ => s.Spans (S.scope (.statements i kind body :: inner)))
        (setBefore c last >>= fun _ => findAliases c >>= fun _ => after c >>= pure) q :=
      proceeds_through inside child (enters.step (.inl role) child statement) spans inv fun t q inv spans => .pure inv spans
    rwa [bind_pure] at through
  | declaration _ kind => cases kind <;> simp [Node.role,DeclKind.role] at role
  | _ => simp [Node.role] at role

variable {i : Info} {condition : Node}

variable {body : Node}

theorem covered_branch {yes no : Node} (eq : n = .branch i condition yes no) : S.Covered inner n := by
  subst eq
  intro q inv known
  obtain ⟨blockYes,blockNo⟩ : yes.role = .block ∧ (no.role = .empty ∨ no.role = .block) := by
    simpa [keepsPlaces] using (isProper_iff.1 ((S.host.append enters.path).proper S.linked.proper)).2.1
  have scope : S.scope (.branch i condition yes no :: inner) = S.scope inner := S.scope_bare rfl
  obtain ⟨child,step⟩ := enters.block rfl rfl (by simp [visited,parts]) blockYes
  rw [findAliases]
  refine (proceeds_before inv known).bind ?_
  rintro start _ - ⟨spans,rfl⟩
  refine (proceeds_ask inv (keeps_whenTrue spans condition)).bind ?_
  rintro s _ - ⟨spansYes,rfl⟩
  refine proceeds_through inside child step (scope ▸ spansYes) inv fun afterYes q inv spansYes => ?_
  have finish {afterNo : Partition Label} {q : Program} (inv : S.Sound q) (spansNo : afterNo.Spans (S.scope inner)) :
      S.Proceeds (fun _ q' => ∃ t, q'.after[(Node.branch i condition yes no).id]? = some t)
        (ofOutcome (afterYes.join afterNo) >>= fun s => setAfter (.branch i condition yes no) s) q := by
    refine (proceeds_join inv (scope ▸ spansYes) spansNo).bind ?_
    rintro s _ - ⟨spans,rfl⟩
    exact proceeds_setAfter enters.path rfl inv spans
  dsimp only
  split
  · exact finish inv spans
  next present =>
    obtain ⟨child,step⟩ := enters.block rfl rfl (by simp [visited,parts])
      (blockNo.resolve_left fun empty => present (isOmitted_iff_role.2 empty))
    refine (proceeds_ask inv (keeps_whenFalse spans condition)).bind ?_
    rintro s _ - ⟨spansNo,rfl⟩
    exact proceeds_through inside child step (scope ▸ spansNo) inv fun afterNo q inv spansNo => finish inv (scope ▸ spansNo)

theorem covered_whileLoop (eq : n = .whileLoop i condition body) : S.Covered inner n := by
  subst eq
  intro q inv known
  have scope : S.scope (.whileLoop i condition body :: inner) = S.scope inner := S.scope_bare rfl
  obtain ⟨child,step⟩ := enters.block rfl rfl (c := body) (by simp [visited,parts])
    (by simpa [keepsPlaces] using (isProper_iff.1 ((S.host.append enters.path).proper S.linked.proper)).2.1)
  rw [findAliases]
  refine proceeds_start enters inv known fun start q inv spans => (proceeds_ask inv (keeps_whenTrue spans condition)).bind ?_
  rintro s _ - ⟨spansBody,rfl⟩
  refine proceeds_visit step.path step.solid inv (scope ▸ spansBody)
    (fun q inv known => (inside body child step q inv known).mono fun _ _ _ _ => trivial) fun q inv => ?_
  refine (proceeds_ask inv (keeps_whenFalse spans condition)).bind ?_
  rintro skipped _ - ⟨spans,rfl⟩
  refine (proceeds_after step.path step.solid inv).bind ?_
  rintro afterBody _ - ⟨spansBody,rfl⟩
  refine (proceeds_ask inv (keeps_whenFalse (scope ▸ spansBody) condition)).bind ?_
  rintro done _ - ⟨spansDone,rfl⟩
  refine (proceeds_join inv spans spansDone).bind ?_
  rintro s _ - ⟨spans,rfl⟩
  exact proceeds_setAfter enters.path rfl inv spans

theorem covered_doWhileLoop (eq : n = .doWhileLoop i body condition) : S.Covered inner n := by
  subst eq
  intro q inv known
  have scope : S.scope (.doWhileLoop i body condition :: inner) = S.scope inner := S.scope_bare rfl
  obtain ⟨child,step⟩ := enters.block rfl rfl (c := body) (by simp [visited,parts])
    (by simpa [keepsPlaces] using (isProper_iff.1 ((S.host.append enters.path).proper S.linked.proper)).2.1)
  rw [findAliases]
  refine proceeds_start enters inv known fun start q inv spans => ?_
  refine proceeds_through inside child step (scope ▸ spans) inv fun s q inv spans => ?_
  rw [scope] at spans
  refine (proceeds_setBefore enters.path rfl inv (.inl spans)).bind fun _ q inv found => ?_
  refine (proceeds_before inv ⟨s,found,spans⟩).bind ?_
  rintro start _ - ⟨spans,rfl⟩
  refine (proceeds_ask inv (keeps_whenFalse spans condition)).bind ?_
  rintro s _ - ⟨spans,rfl⟩
  exact proceeds_setAfter enters.path rfl inv spans

end Inside

theorem proceeds_typeName (role : c.role = .typeName) (inv : S.Sound q) :
    S.Proceeds (fun _ _ => True) (findAliases c) q := by
  have steps {c : Node} (bare : c.children = []) : S.Proceeds (fun _ _ => True)
      (ofOutcome c.ensureWalkable >>= fun _ => c.children.attach.forM fun c => findAliases c.1) q := by
    refine Ensures.bind (Q := fun _ _ => True) (.ofOutcome inv (Program.keeps_ensureWalkable c)) fun _ q inv _ => ?_
    rw [show c.children.attach = [] by simp [bare]]
    exact .pure inv trivial
  cases c with
  | elementary | userType =>
    rw [findAliases]
    · exact steps rfl
    all_goals
      intros
      contradiction
  | declaration _ kind => cases kind <;> simp [Node.role,DeclKind.role] at role
  | statements _ kind => cases kind <;> simp [Node.role,ListKind.role] at role
  | _ => simp [Node.role] at role

/-- What is known behind a part. An empty place has no state behind it. -/
theorem proceeds_leave (enters : S.Enters inner n) (inv : S.Sound q)
    (place : c.isOmitted = false → c ∈ n.children ∧ c.isLeaflet = false) :
    S.Proceeds (fun s q' => s.Spans (S.scope (n :: inner)) ∧ q' = q) (after c) q := by
  refine .after inv fun s found => ⟨?_,rfl⟩
  cases omitted : c.isOmitted with
  | false => exact inv.after _ c (enters.path.child (place omitted).1) (place omitted).2 s found
  | true =>
    have empty : c = .omitted := by
      cases c <;> first | rfl | cases omitted
    rw [empty,inv.omitted] at found
    cases found

section Loop

variable {i : Info} {start condition update body : Node} (eq : n = .forLoop i start condition update body)
  (enters : S.Enters inner n)
include eq enters

theorem Enters.loop_places : ((start.role ∈ .empty :: Role.steps ∧ condition.role ≠ .variableStatement) ∧
    update.role ∈ [.empty,.typeName,.simpleStatement]) ∧ body.role = .block := by
  have places := (isProper_iff.1 ((S.host.append enters.path).proper S.linked.proper)).2.1
  simpa only [eq,keepsPlaces,Bool.and_eq_true,contains_iff_mem,decide_eq_true_eq] using places

theorem Enters.loop_bare (omitted : start.isOmitted) : n.declarers = [] := by
  obtain ⟨⟨⟨-,checks⟩,changes⟩,block⟩ := enters.loop_places eq
  obtain ⟨-,-,-,-,-,-,declarers⟩ := S.linked.names_of_steps (S.host.append enters.path) (.inr (by rw [eq]; rfl))
  rw [declarers,eq]
  refine filter_eq_nil_iff.2 fun c hc var => ?_
  obtain ⟨part,present⟩ := mem_filter.1 hc
  have kind : c.role = .variableStatement := by
    cases c <;> first | rfl | cases var
  obtain rfl | rfl | rfl | rfl : c = start ∨ c = condition ∨ c = update ∨ c = body := by simpa [visited,parts] using part
  · simp [omitted] at present
  · exact checks kind
  · exact absurd (kind ▸ changes) (by decide)
  · rw [kind] at block
    cases block

theorem covered_forLoop (inside : ∀ c ∈ n.children, S.Enters (n :: inner) c → S.Covered (n :: inner) c) :
    S.Covered inner n := by
  intro q inv known
  obtain ⟨role,solid,loop⟩ : n.role = .loop ∧ n.isLeaflet = false ∧ n.isForLoop := by
    rw [eq]
    exact ⟨rfl,rfl,rfl⟩
  obtain ⟨⟨⟨begins,-⟩,changes⟩,block⟩ := enters.loop_places eq
  obtain ⟨t,names,nodup,new,scope⟩ := names_inside enters (.inr role)
  have child {c : Node} (part : c ∈ [start,condition,update,body]) (present : c.isOmitted = false) : c ∈ n.children := by
    rw [eq]
    exact mem_filter.2 ⟨part,by simp [present]⟩
  have filled {c : Node} (present : c.isOmitted = false) : c.role ≠ .empty :=
    fun empty => by simp [isOmitted_iff_role.2 empty] at present
  have bodyChild := child (c := body) (by simp) (Bool.eq_false_iff.2 (mt isOmitted_iff_role.1 (by simp [block])))
  have bodyStep := enters.step (.inr role) bodyChild (isStatement_of_role (by rw [block]; decide))
  have startStep (present : start.isOmitted = false) : start ∈ n.children ∧ S.Enters (n :: inner) start :=
    ⟨child (by simp) present,enters.step (.inr role) (child (by simp) present)
      (isStatement_of_role ((mem_cons.1 begins).resolve_left (filled present)))⟩
  have updateSolid (present : update.isOmitted = false) : update.isLeaflet = false := by
    have word : update.role ≠ .word := fun word => absurd (word ▸ changes) (by decide)
    cases update <;> first | rfl | exact absurd rfl word | cases present
  rw [eq,findAliases,← eq]
  refine (proceeds_declared names inv).bind ?_
  rintro _ _ - ⟨rfl,rfl⟩
  refine (proceeds_before inv known).bind ?_
  rintro s _ - ⟨spans,rfl⟩
  extract_lets last finish round decided
  have spansLast : last.Spans (S.scope (n :: inner)) := (spans.insertAll nodup new).congr scope
  have finishes (u : Unit) (q : Program) (inv : S.Sound q) :
      S.Proceeds (fun _ q' => ∃ t, q'.after[n.id]? = some t) (finish u) q := by
    refine (proceeds_leave enters inv fun present => ⟨(startStep present).1,(startStep present).2.solid⟩).bind ?_
    rintro s _ - ⟨spans,rfl⟩
    refine (proceeds_ask inv (keeps_whenFalse spans condition)).bind ?_
    rintro skipped _ - ⟨spans,rfl⟩
    refine Ensures.bind (Q := fun s q' => s.Spans (S.scope (n :: inner)) ∧ q' = _) (proceeds_leave enters inv ?_) ?_
    · split
      · exact fun _ => ⟨bodyChild,bodyStep.solid⟩
      · exact fun present => ⟨child (by simp) present,updateSolid present⟩
    rintro s _ - ⟨spansRound,rfl⟩
    refine (proceeds_ask inv (keeps_whenFalse spansRound condition)).bind ?_
    rintro done _ - ⟨spansRound,rfl⟩
    refine (proceeds_join inv spans spansRound).bind ?_
    rintro s _ - ⟨spans,rfl⟩
    exact proceeds_dropAfter enters.path solid inv (spans.congr fun x => (scope x).symm) nodup new
  have rounds (u : Unit) (q : Program) (inv : S.Sound q) (known : S.Knows (n :: inner) n q) :
      S.Proceeds (fun _ q' => ∃ t, q'.after[n.id]? = some t) (round u) q := by
    refine (proceeds_before inv known).bind ?_
    rintro s _ - ⟨spans,rfl⟩
    refine (proceeds_ask inv (keeps_whenTrue spans condition)).bind ?_
    rintro s _ - ⟨spans,rfl⟩
    refine proceeds_visit bodyStep.path bodyStep.solid inv spans
      (fun q inv known => (inside body bodyChild bodyStep q inv known).mono fun _ _ _ _ => trivial) fun q inv => ?_
    split
    next more =>
      have present : update.isOmitted = false := by simpa using more
      refine (proceeds_leave enters inv fun _ => ⟨bodyChild,bodyStep.solid⟩).bind ?_
      rintro s _ - ⟨spans,rfl⟩
      have updateChild := child (c := update) (by simp) present
      refine proceeds_visit (enters.path.child updateChild) (updateSolid present) inv spans (fun q inv known => ?_)
        fun q inv => finishes () q inv
      obtain empty | type | simple : update.role = .empty ∨ update.role = .typeName ∨ update.role = .simpleStatement := by
        simpa using changes
      · exact absurd empty (filled present)
      · exact proceeds_typeName type inv
      · have step := enters.step (.inr role) updateChild (isStatement_of_role (by rw [simple]; decide))
        exact (inside update updateChild step q inv known).mono fun _ _ _ _ => trivial
    next => exact finishes () q inv
  have decides (u : Unit) (q : Program) (inv : S.Sound q) (known : S.Knows (n :: inner) n q) :
      S.Proceeds (fun _ q' => ∃ t, q'.after[n.id]? = some t) (decided u) q := by
    refine Ensures.bind (Q := fun _ q' => q = q') (.ask inv ((keeps_anySideEffects _).mono (fun _ _ => rfl) id)) ?_
    rintro effects _ - rfl
    split
    · refine Ensures.bind (Q := fun _ q' => q = q') (.get inv rfl) ?_
      rintro r _ - rfl
      have spans := spansLast.separateAll r.isImmutable
      exact (proceeds_setBefore enters.path solid inv (.inr ⟨loop,spans⟩)).bind fun u q inv found =>
        rounds u q inv ⟨_,found,spans⟩
    · exact rounds () _ inv known
  split
  next more =>
    obtain ⟨startChild,step⟩ := startStep (by simpa using more)
    refine proceeds_through inside startChild step spansLast inv fun t q inv spans => ?_
    exact (proceeds_setBefore enters.path solid inv (.inr ⟨loop,spans⟩)).bind fun u q inv found =>
      decides u q inv ⟨t,found,spans⟩
  next void =>
    refine decides () _ inv ?_
    rw [Knows,S.scope_bare (enters.loop_bare eq (by simpa using void))]
    exact known

end Loop

variable {declaration value : Node}

/-! ### Single statements -/

theorem proceeds_stored {x : Label}
    (enters : S.Enters inner (.variableStatement i declaration value)) (spans : s.Spans (S.scope inner))
    (owner : Option Label) (inv : S.Sound q) :
    S.Proceeds (fun _ q' => ∃ t, q'.after[(Node.variableStatement i declaration value).id]? = some t) (match owner with
      | some y => ofOutcome (settled (s.merge x y)) >>= fun s => setAfter (.variableStatement i declaration value) s
      | none => setAfter (.variableStatement i declaration value) s) q := by
  cases owner with
  | none => exact proceeds_setAfter enters.path rfl inv spans
  | some y =>
    exact Ensures.bind (Q := fun s _ => s.Spans (S.scope inner)) (.ofOutcome inv (keeps_merge spans _ y))
      fun s q inv spans => proceeds_setAfter enters.path rfl inv spans

theorem covered_variableStatement (enters : S.Enters inner (.variableStatement i declaration value)) :
    S.Covered inner (.variableStatement i declaration value) := by
  intro q inv known
  rw [findAliases]
  refine proceeds_start enters inv known fun s q inv spans => ?_
  have named : s.has (.identifier ((declaration.ownName?).getD .omitted).id) := by
    refine Partition.has_iff.2 ((spans.together_iff _).2 ?_)
    have label := enters.named rfl
    rw [declaredLabel,local?,Option.getD_some,nameId] at label
    cases name : declaration.ownName? <;> (rw [name] at label; exact label)
  dsimp only
  rw [named,if_neg (by simp)]
  split
  · exact proceeds_setAfter enters.path rfl inv spans
  · exact Ensures.bind (Q := fun _ _ => True) (.ask inv (Program.keeps_label _ value))
      fun owner q inv _ => proceeds_stored enters spans owner inv

theorem covered_require {condition remark : Node} {raw : String}
    (enters : S.Enters inner (.require i condition remark raw)) : S.Covered inner (.require i condition remark raw) := by
  intro q inv known
  rw [findAliases.eq_def]
  refine proceeds_start enters inv known fun s q inv spans => ?_
  dsimp only
  split
  · exact .throw inv nofun
  · exact proceeds_setAfter enters.path rfl inv spans

theorem covered_assign {toCircuit : Bool} {left right : Node} {op : String}
    (enters : S.Enters inner (.assign i toCircuit left right op)) : S.Covered inner (.assign i toCircuit left right op) := by
  intro q inv known
  rw [findAliases]
  refine proceeds_start enters inv known fun s q inv spans => ?_
  refine (proceeds_ask inv ((keeps_assign spans left right).mono (fun _ => id) fun outside => ?_)).bind ?_
  · refine ⟨inner,i,toCircuit,left,right,op,enters.path,?_⟩
    rw [StoresOutside,inv.same,named?_withStates] at outside
    exact outside
  · rintro s _ - ⟨spans,rfl⟩
    exact proceeds_setAfter enters.path rfl inv spans

theorem covered_expressionStatement (enters : S.Enters inner (.expressionStatement i value)) :
    S.Covered inner (.expressionStatement i value) := by
  intro q inv known
  rw [findAliases]
  exact proceeds_start enters inv known fun s q inv spans => proceeds_setAfter enters.path rfl inv spans

theorem covered_jump (enters : S.Enters inner n) (jump : findAliases n = get >>= fun q => match q.before[n.id]? with
    | some s => setAfter n s
    | none => pure ()) : S.Covered inner n := by
  intro q inv known
  obtain ⟨s,found,spans⟩ := known
  rw [jump]
  refine Ensures.bind (Q := fun r q' => q = r ∧ q = q') (.get inv ⟨rfl,rfl⟩) ?_
  rintro _ _ - ⟨rfl,rfl⟩
  rw [found]
  exact proceeds_setAfter enters.path enters.solid inv spans

theorem covered_unknown {rest : PUnit → Pass Unit} (unknown : findAliases n = throw (.unsupported (some "")) >>= rest) :
    S.Covered inner n := by
  intro q inv known
  rw [unknown]
  exact Ensures.bind (Q := fun _ _ => False) (.throw inv nofun) fun _ _ _ => False.elim

theorem covered (enters : S.Enters inner n) (role : n.role ∈ Role.steps) : S.Covered inner n := by
  induction n generalizing inner with
  | step n ih =>
    have inside (c : Node) (hc : c ∈ n.children) (step : S.Enters (n :: inner) c) : S.Covered (n :: inner) c := by
      have part := part_of_child hc
      refine ih c part step (role_mem_steps step.statement fun other => ?_)
      have below := (isProper_iff.1 ((S.host.append enters.path).proper S.linked.proper)).1 c part
      rw [other] at below
      generalize n.role = r at role below
      revert r
      decide
    cases n with
    | statements _ kind =>
      refine covered_block enters inside ?_
      cases kind <;> first | rfl | simp [Node.role,ListKind.role,Role.steps] at role
    | branch => exact covered_branch enters inside rfl
    | whileLoop => exact covered_whileLoop enters inside rfl
    | doWhileLoop => exact covered_doWhileLoop enters inside rfl
    | forLoop => exact covered_forLoop rfl enters inside
    | variableStatement => exact covered_variableStatement enters
    | require => exact covered_require enters
    | assign => exact covered_assign enters
    | expressionStatement => exact covered_expressionStatement enters
    | returnValue | continueLoop | breakLoop => exact covered_jump enters (findAliases.eq_def _)
    | variablesStatement | tryCall | emit | revert | assembly =>
      apply covered_unknown
      rw [findAliases]
      · exact if_pos rfl
      all_goals
        intros
        contradiction
    | declaration _ kind => cases kind <;> simp [Node.role,DeclKind.role,Role.steps] at role
    | _ => simp [Node.role,Role.steps] at role

end Site

/-! ### The start of a function -/

namespace LinkedSource

variable {p : Program} {first : Nat} {root c f : Node} (h : LinkedSource p first root)

include h in
theorem declarers_root : root.declarers = [] := by
  obtain ⟨i,as,bs,single,rfl⟩ := exists_of_isSource (isSource_iff.2 h.source)
  rfl

variable (path : Path root [c,root] f) (contract : c.isContract)
include h path contract

variable {parameters : Option (List Node)}

variable {i : Info} {body name : Node} {marks results : List Node} {kind : FunctionKind}

theorem isClear_function (eq : f = .function i name parameters marks results body kind) :
    c.IsClear [root] ∧ f.IsClear [c,root] := by
  have outermost : root.IsClear [] := fun k _ => by simp [inScope]
  have child : c ∈ root.children := by
    cases path.above with
    | child _ hc => exact hc
  have clear : c.IsClear [root] := h.isClear_child .root outermost child (by simp [h.declarers_root])
  have unit : f ∈ c.children := by
    cases path with
    | child _ hc => exact hc
  refine ⟨clear,h.isClear_child path.above clear unit fun declares => ?_⟩
  cases c with
  | contract => simp [eq,declarers,stateVariables,isStateVariable] at declares
  | _ => cases contract

theorem run_entry (eq : f = .function i name parameters marks results body kind) :
    ∃ s, (entry c (parameters.getD [])).run p = (.ok s,p) ∧ s.Spans (inScope [f,c,root]) := by
  obtain ⟨clear,clear'⟩ := h.isClear_function path contract eq
  have states : c.declarers = c.stateVariables := by
    cases c <;> first | rfl | cases contract
  have own : (∀ d ∈ c.stateVariables, ∃ e, Lists d e) ∧ ∀ d ∈ parameters.getD [], ∃ e, Lists d e := by
    constructor
    · cases c with
      | contract => exact fun d hd => (h.own_of_role path.above (by simp [Node.role])).2 d (mem_append_left _ hd)
      | _ => cases contract
    · subst eq
      exact (h.own_of_role path (by simp [Node.role])).2
  have labels {ds : List Node} (own : ∀ d ∈ ds, ∃ e, Lists d e) :
      ds.filterMap (fun d => (d.ownName?).map fun name => Label.identifier name.id) = ds.map declaredLabel := by
    rw [← filterMap_eq_map]
    refine filterMap_congr fun d hd => ?_
    obtain ⟨e,j,named,-⟩ := own d hd
    have alone : d.local? = none := by
      cases d <;> first | rfl | cases named
    simp [declaredLabel,alone,nameId,named]
  have fixed : ([.owner .me,.owner .all,.owner .tee].foldl Partition.insert {} : Partition Label).Spans (inScope [root]) := by
    have empty : ({} : Partition Label).Spans [] := .of_together Partition.isProper_empty (by simp [Partition.Together])
    refine (empty.insertAll (by decide) (by simp)).congr fun x => ?_
    simp [inScope,h.declarers_root]
  have first := fixed.insertAll (h.nodup_declared path.above) fun x => h.declared_new path.above clear
  rw [← inScope_cons] at first
  have second := first.insertAll (h.nodup_declared path) fun x => h.declared_new path clear'
  rw [← inScope_cons] at second
  refine ⟨_,?_,second⟩
  unfold entry
  rw [contract]
  dsimp only
  rw [filterMap_append,labels own.1,labels own.2,← states,show (parameters.getD []) = f.declarers by rw [eq]; rfl]
  change (Except.ok (([Label.owner .me,.owner .all,.owner .tee] ++
    (c.declarers.map declaredLabel ++ f.declarers.map declaredLabel)).foldl Partition.insert {}),p) = _
  rw [foldl_append,foldl_append]

end LinkedSource

theorem Aliases.assign_violated_iff {p : Program} {left right : Node} {x y : Label} {s : Partition Label} {xs : List Label}
    (hx : p.label left = .ok (some x)) (hy : p.label right = .ok (some y)) (h : s.Spans xs) :
    assign p left right s = .error .violated ↔ x ∉ xs ∧ y ≠ x := by
  have moves : assign p left right s = settled (s.moveTo x y) := by
    rw [assign.eq_2 _ _ _ _ (fun i ls _ _ eq _ => by rw [eq] at hx; cases hx),hx,hy]
    rfl
  rw [moves]
  constructor
  · intro violated
    have keeps := keeps_moveTo h x y
    rw [violated] at keeps
    exact keeps rfl
  · rintro ⟨outside,ne⟩
    have absent : s.index? x = none := by
      simpa [Partition.has] using (not_congr Partition.has_iff).2 (mt (h.together_iff x).1 outside)
    simp [Partition.moveTo,Partition.samePart,Ne.symm ne,absent,Partition.remove,settled]

/-- The analysis of a function keeps states of exactly the names in scope before and after its statements, however it ends:
of the owners that every program has, the state variables, the parameters, and the variables of the blocks and loops around
the statement. Only the state before a loop comes to include what the loop itself declares. A check fails only where an
assignment stores the value of a name for one that is not in scope, and there it does. -/
theorem alias_states_in_scope {text : String} {settings : Settings} {p : Program} {c : Node}
    (run : Runs (loadLinked text) { Globals.base with settings } () p) (hc : c ∈ p.contracts)
    {i j : Info} {name : Node} {parameters : Option (List Node)} {marks results steps : List Node} {single : Bool}
    {kind : FunctionKind} {f : Node} (eq : f = .function i name parameters marks results (.statements j (.block single) steps) kind)
    (hf : f ∈ c.units) {r : Outcome Unit} {q : Program} (ends : (findAliases f).run p = (r,q)) :
    (∀ inner n, Path f inner n → n.isStatement = true →
      (∀ s, q.before[n.id]? = some s → s.Spans (inScope (inner ++ [c])) ∨
        n.isForLoop = true ∧ s.Spans (inScope (n :: inner ++ [c]))) ∧
      ∀ s, q.after[n.id]? = some s → s.Spans (inScope (inner ++ [c]))) ∧
    (r = .ok () → ∃ s, q.after[j.id]? = some s) ∧
    (r = .error .violated → StoresOutsideWithin p f [c]) ∧
    ∀ left right x y xs s, p.label left = .ok (some x) → p.label right = .ok (some y) → s.Spans xs →
      (assign p left right s = .error .violated ↔ x ∉ xs ∧ y ≠ x) := by
  obtain ⟨first,root,h,-,-,contract,-,units⟩ := contract_of_runs run hc
  have path := (units f hf (by rw [eq]; rfl)).1
  obtain ⟨s,entered,spans⟩ := h.run_entry path contract eq
  have outermost (around : List Node) : inScope (around ++ [c,root]) = inScope (around ++ [c]) := by
    simp [inScope,h.declarers_root]
  have child : Node.statements j (.block single) steps ∈ f.children := by
    rw [eq]
    exact mem_filter.2 ⟨by simp [visited],rfl⟩
  have parent : p.parent f = .ok c := by
    rw [Program.parent,h.holds.parent?_eq path (by rw [eq]; rfl)]
  let S : Site := ⟨p,root,f,[c,root],first,h,path⟩
  have enters : S.Enters [f] (.statements j (.block single) steps) := by
    refine ⟨Path.root.child child,rfl,fun var => (by cases var),fun _ => ?_⟩
    refine h.isClear_child path (h.isClear_function path contract eq).2 child fun declares => ?_
    obtain ⟨e,k,named,-⟩ := h.lists_of_declarer path declares
    cases named
  have empty : S.Sound p := by
    obtain ⟨before,after⟩ := h.states
    exact ⟨rfl,by simp [before],by simp [after],by simp [after]⟩
  have whole : S.Proceeds (fun _ q' => ∃ t, q'.after[j.id]? = some t)
      (setBefore (.statements j (.block single) steps) s >>= fun _ => findAliases (.statements j (.block single) steps)) p :=
    (Site.proceeds_setBefore enters.path rfl empty (.inl spans)).bind fun _ q inv found =>
      Site.covered enters (by simp [Node.role,ListKind.role,Role.steps]) q inv ⟨s,found,spans⟩
  have same : (setBefore (.statements j (.block single) steps) s >>= fun _ =>
      findAliases (.statements j (.block single) steps)).run p = (r,q) := by
    rw [← ends,eq,findAliases,← eq]
    conv_rhs => rw [run_bind,run_ask,parent]
    dsimp only
    conv_rhs => rw [run_bind,entered]
  unfold Site.Proceeds Ensures at whole
  rw [same] at whole
  obtain ⟨inv,result⟩ := whole
  refine ⟨fun inner n inside statement => ?_,?_,?_,fun left right x y xs s => assign_violated_iff⟩
  · have solid := isLeaflet_of statement fun _ => rfl
    rw [← outermost,cons_append,← cons_append,← outermost]
    exact ⟨inv.before _ n inside solid,inv.after _ n inside solid⟩
  · rintro rfl
    exact result
  · rintro rfl
    obtain ⟨inner,k,t,left,right,op,inside,outside⟩ := result rfl
    exact ⟨inner,k,t,left,right,op,inside,outermost inner ▸ outside⟩

/-- A function that stores a state variable for the time of the block, which is a name of every program. -/
def storesForClock : String :=
  "contract C\x7buint y;function f()public\x7bnow=y;\x7d\x7d"

/-- The check of the only function fails. -/
def Program.refusesStep (p : Program) : Bool :=
  match p.contracts with
  | [c] => match c.units with
    | [_,.function i title parameters marks results (.statements j (.block single) steps) kind] =>
      match ((findAliases (.function i title parameters marks results (.statements j (.block single) steps) kind)).run p).1 with
      | .error .violated => true
      | _ => false
    | _ => false
  | _ => false

/-- Names that every program has can be assigned as far as linking goes, but they are not among the names in scope. -/
theorem storesForClock_violated : ∃ p c f q, Runs (loadLinked storesForClock) { Globals.base with settings := {} } () p ∧
    p.contracts = [c] ∧ f ∈ c.units ∧ (findAliases f).run p = (.error .violated,q) ∧ StoresOutsideWithin p f [c] := by
  have chars : storesForClock = String.ofList _ := rfl
  have evaluated : (loadLinked storesForClock).succeeds { Globals.base with settings := {} } (fun _ p => p.refusesStep) := by
    rw [loadLinked,load_eq chars]
    decide +kernel
  obtain ⟨_,p,run,evaluated⟩ := of_succeeds evaluated
  unfold Program.refusesStep at evaluated
  split at evaluated
  next c listed =>
    split at evaluated
    next y i title parameters marks results j single steps kind units =>
      split at evaluated
      next violated =>
        generalize ends : (findAliases _).run p = ended at violated
        obtain ⟨r,q⟩ := ended
        obtain rfl : r = .error .violated := violated
        refine ⟨p,c,_,q,run,listed,by simp [units],ends,?_⟩
        exact (alias_states_in_scope run (by simp [listed]) rfl (by simp [units]) ends).2.2.1 rfl
      next => cases evaluated
    next => cases evaluated
  next => cases evaluated

end Confidential
