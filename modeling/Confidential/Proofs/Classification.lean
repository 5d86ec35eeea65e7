import Confidential.Proofs.CallGraph

/-!
How functions are carried out.
-/

namespace Confidential

open List Node Pass

namespace Node

variable {f : Node} {b : Bool}

def isReveal : Node → Bool
  | .reveal .. => true
  | _ => false

/-- A value is revealed in the body of the function, as far as the passes look into it. -/
def Reveals : Node → Prop
  | .function _ _ _ _ _ body _ => ∃ m, body.Contains m ∧ m.isReveal = true
  | _ => False

theorem Reveals.not_idle (h : f.Reveals) : ¬ f.Idle := by
  cases f with
  | function _ _ _ _ _ body =>
    obtain ⟨m,hm,reveal⟩ := h
    intro idle
    have quiet : m.isActive = false := by
      cases body with
      | omitted =>
        cases hm with
        | self => rfl
        | child _ hc => cases hc
      | _ => exact idle m (.child rfl (mem_filter.2 ⟨by simp [visited],rfl⟩) hm)
    cases m with
    | reveal => cases quiet
    | _ => cases reveal
  | _ => cases h

def HasPrivateParameter : Node → Prop
  | .function _ _ parameters _ _ _ _ => ∃ d ∈ parameters.getD [], Program.isPublic d.annotatedType = .ok false
  | _ => False

/-- Looks at one parameter, unless a private one was found before. -/
def privateStep (so : Bool) : Node → Outcome Bool
  | .declaration _ _ _ type _ _ => do if so then return true else return !(← Program.isPublic type)
  | _ => .error .absent

theorem privateStep_eq_ok {so : Bool} {d : Node} (h : privateStep so d = .ok b) :
    b ↔ so ∨ Program.isPublic d.annotatedType = .ok false := by
  cases d with
  | declaration _ _ _ type =>
    cases so with
    | true =>
      cases h
      simp
    | false =>
      obtain ⟨c,known,h⟩ := bind_ok.1 h
      cases h
      change _ ↔ _ ∨ Program.isPublic type = .ok false
      rw [known]
      cases c <;> simp
  | _ => cases h

theorem hasPrivateParameter_eq_ok (h : hasPrivateParameter f = .ok b) :
    b ↔ f.HasPrivateParameter := by
  have fold {ds : List Node} {so : Bool} (h : ds.foldlM privateStep so = .ok b) :
      b ↔ so ∨ ∃ d ∈ ds, Program.isPublic d.annotatedType = .ok false := by
    induction ds generalizing so with
    | nil =>
      cases h
      simp
    | cons _ _ ih =>
      rw [foldlM_cons,bind_ok] at h
      obtain ⟨so',first,rest⟩ := h
      rw [ih rest,privateStep_eq_ok first,exists_mem_cons_iff,or_assoc]
  cases f with
  | function => simpa [HasPrivateParameter] using fold h
  | _ => cases h

end Node

variable {p p' : Program}

/-- No expression is known to be evaluated privately. -/
structure Program.IsPlain (p : Program) : Prop where
  hidden : ∀ k : Nat, p.hidden[k]? = none
  operators : ∀ k : Nat, p.privateOperators.getD k false = false

theorem FactsOnly.isPlain (h : FactsOnly p p') (plain : p.IsPlain) : p'.IsPlain := by
  rw [h]
  exact ⟨plain.hidden,plain.operators⟩

theorem Program.IsPlain.isPrivateOperation {n : Node} {b : Bool} (h : p.IsPlain)
    (known : isPrivateOperation p n = .ok b) : b = n.isReveal := by
  have hidden {m : Node} {b : Bool} (known : p.isHidden m = .ok b) : b = false := by
    rw [Program.isHidden,h.hidden] at known
    dsimp only at known
    split at known
    · exact (Except.ok.inj known).symm
    · cases known
  cases n with
  | reveal => exact (Except.ok.inj known).symm
  | cast => exact hidden known
  | call _ callee =>
    have plain : (callee.isBuiltin && p.isPrivateOperator callee) = false := by
      rw [Program.isPrivateOperator,h.operators,Bool.and_false]
    change (if (callee.isBuiltin && p.isPrivateOperator callee) = true then _ else _) = _ at known
    rw [plain,if_neg Bool.false_ne_true] at known
    obtain ⟨cast,-,known⟩ := bind_ok.1 known
    cases cast with
    | true => exact hidden known
    | false => exact (Except.ok.inj known).symm
  | _ => exact (Except.ok.inj known).symm

/-- The function with the number `k` has become one for the trusted environment. -/
structure Raised (k : Nat) (p p' : Program) : Prop where
  only : FactsOnly p p'
  own : p'.factsOf k = { p.factsOf k with privacy := .tee }
  other : ∀ j, k ≠ j → p'.factsOf j = p.factsOf j

theorem Raised.trans {k : Nat} {q : Program} (h : Raised k p q) (h' : Raised k q p') : Raised k p p' where
  only := Trans.trans h.only h'.only
  own := by rw [h'.own,h.own]
  other j hj := (h'.other j hj).trans (h.other j hj)

section Direct

variable {p p' : Program} {f n : Node}

theorem runs_relatedContract {c : Node} (run : Runs (relatedContract n) p c p') : p = p' := by
  have go {ms : List Node} (run : Runs (relatedContract.go ms) p c p') : p = p' := by
    induction ms with
    | nil => exact absurd run runs_throw
    | cons _ _ ih =>
      rw [relatedContract.go] at run
      split at run
      · exact (runs_pure.1 run).2
      split at run
      · exact (runs_pure.1 run).2
      · exact ih run
  replace run := runs_get_bind.1 run
  exact go run

theorem runs_raisePrivacy (kind : (p.factsOf f.id).privacy = .pub ∨ (p.factsOf f.id).privacy = .tee)
    (run : Runs (raisePrivacy f) p () p') : Raised f.id p p' := by
  obtain ⟨-,run⟩ := runs_guard.1 run
  replace run := runs_get_bind.1 run
  change Runs (if (Privacy.isAbove .mpc (p.factsOf f.id).privacy).getD false = true then _ else _) _ _ _ at run
  obtain pub | tee := kind
  · rw [pub,if_pos (by decide)] at run
    obtain ⟨_,q,changed,run⟩ := runs_bind.1 run
    obtain rfl := runs_updateFacts.1 changed
    obtain ⟨c,_,related,run⟩ := runs_bind.1 run
    obtain rfl := runs_relatedContract related
    obtain ⟨-,run⟩ := runs_guard.1 run
    obtain ⟨name,-,run⟩ := runs_ofOutcome_bind.1 run
    obtain ⟨text,_,described,run⟩ := runs_bind.1 run
    obtain ⟨-,rfl⟩ := runs_pure.1 described
    obtain rfl := runs_modify.1 run
    refine ⟨rfl,?_,fun j other => ?_⟩
    · exact (Program.factsOf_withFacts ..).trans (if_pos rfl)
    · exact (Program.factsOf_withFacts ..).trans (if_neg other)
  · rw [tee,if_neg (by decide)] at run
    obtain ⟨-,rfl⟩ := runs_pure.1 run
    exact ⟨refl p,by rw [← tee],fun _ _ => rfl⟩

def Node.isIgnored (n : Node) : Bool :=
  n.isParameter || n matches .owner _ .all

theorem runs_raiseDirectly_cases (run : Runs (raiseDirectly n) p () p') :
    (n.isIgnored ∧ p' = p) ∨ (n.isParameter = false ∧ ∃ b, isPrivateOperation p n = .ok b ∧
      if b then Runs (raiseAround n) p () p' else Runs (n.children.forM raiseDirectly) p () p') := by
  have attached : n.children.attach.forM (fun c => raiseDirectly c.1) = n.children.forM raiseDirectly := by
    conv => rhs; rw [← attach_map_subtype_val n.children]
    exact (forM_map ..).symm
  rw [raiseDirectly.eq_def] at run
  change Runs (if n.isIgnored = true then _ else _) _ _ _ at run
  by_cases ignored : n.isIgnored
  · rw [if_pos ignored] at run
    exact .inl ⟨ignored,(runs_pure.1 run).2.symm⟩
  · rw [if_neg ignored] at run
    refine .inr ⟨?_,?_⟩
    · cases parameter : n.isParameter with
      | false => rfl
      | true => simp [isIgnored,parameter] at ignored
    · obtain ⟨b,known,run⟩ := runs_ask_bind.1 run
      refine ⟨b,known,?_⟩
      cases b with
      | true => exact run
      | false =>
        obtain ⟨_,-,run⟩ := runs_ofOutcome_bind.1 run
        exact attached ▸ run

theorem Node.isReveal_of_isIgnored {m : Node} (ignored : n.isIgnored) (hm : n.Contains m) : m.isReveal = false := by
  have same : m = n := by
    cases hm with
    | self => rfl
    | child opened hc =>
      obtain parameter | all := Bool.or_eq_true_iff.1 ignored
      · rw [parameter] at opened
        cases opened
      · cases n with
        | owner => cases hc
        | _ => cases all
  subst same
  cases m <;> first | rfl | cases ignored

theorem runs_raiseDirectly (plain : p.IsPlain) (own : Encloses p f) (inside : f.Contains n)
    (kind : (p.factsOf f.id).privacy = .pub ∨ (p.factsOf f.id).privacy = .tee) (run : Runs (raiseDirectly n) p () p') :
    (Raised f.id p p' ∧ ∃ m, n.Contains m ∧ m.isReveal) ∨ (p' = p ∧ ∀ m, n.Contains m → m.isReveal = false) := by
  induction n generalizing p p' with
  | step n ih =>
    obtain ⟨ignored,rfl⟩ | ⟨opened,b,known,run⟩ := runs_raiseDirectly_cases run
    · exact .inr ⟨rfl,fun m => isReveal_of_isIgnored ignored⟩
    have operation := plain.isPrivateOperation known
    cases b with
    | true =>
      have expression : n.isExpression := by
        cases n <;> first | rfl | cases operation
      obtain ⟨g,around,run⟩ := runs_ask_bind.1 run
      cases own.expression n g inside expression around
      exact .inl ⟨runs_raisePrivacy kind run,n,.self,operation.symm⟩
    | false =>
      have below {cs : List Node} (all : ∀ c ∈ cs, c ∈ n.children) {p : Program} (plain : p.IsPlain) (own : Encloses p f)
          (kind : (p.factsOf f.id).privacy = .pub ∨ (p.factsOf f.id).privacy = .tee)
          (run : Runs (cs.forM raiseDirectly) p () p') :
          (Raised f.id p p' ∧ ∃ c ∈ cs, ∃ m, c.Contains m ∧ m.isReveal) ∨
            (p' = p ∧ ∀ c ∈ cs, ∀ m, c.Contains m → m.isReveal = false) := by
        induction cs generalizing p with
        | nil => exact .inr ⟨(runs_forM_nil.1 run).symm,by simp⟩
        | cons c _ rest =>
          rw [forall_mem_cons] at all
          obtain ⟨q,first,last⟩ := runs_forM_cons.1 run
          have here : f.Contains c := inside.trans (.child opened all.1 .self)
          obtain ⟨raised,found⟩ | ⟨rfl,void⟩ := ih c (part_of_child all.1) plain own here kind first
          · refine .inl ⟨?_,c,mem_cons_self,found⟩
            obtain ⟨more,-⟩ | ⟨rfl,-⟩ := rest all.2 (raised.only.isPlain plain) (own.mono raised.only)
              (.inr (by rw [raised.own])) last
            · exact raised.trans more
            · exact raised
          · obtain ⟨raised,c',hc',found⟩ | ⟨rfl,void'⟩ := rest all.2 plain own kind last
            · exact .inl ⟨raised,c',.tail _ hc',found⟩
            · exact .inr ⟨rfl,forall_mem_cons.2 ⟨void,void'⟩⟩
      simp only [within_of_open opened]
      obtain ⟨raised,c,hc,m,hm,reveal⟩ | ⟨rfl,void⟩ := below (fun _ => id) plain own kind run
      · exact .inl ⟨raised,m,.inr ⟨c,hc,hm⟩,reveal⟩
      · refine .inr ⟨rfl,?_⟩
        rintro m (rfl | ⟨c,hc,hm⟩)
        · exact operation.symm
        · exact void c hc m hm

/-- Calls of a function from outside are verified if it is private, or gets private values. -/
def Pass.verifyOutside (f : Node) : Pass Unit := do
  if f.canBeExternal then
    let privacy := ((← get).facts f).privacy
    if privacy == .zkp || privacy == .tee then setVerifiedOutside f
    else if ← ofOutcome (hasPrivateParameter f) then setVerifiedOutside f

/-- What the function `f` is found to be. -/
structure Classified (f : Node) (p p' : Program) : Prop where
  only : FactsOnly p p'
  other : ∀ j, f.id ≠ j → p'.factsOf j = p.factsOf j
  called : (p'.factsOf f.id).called = (p.factsOf f.id).called
  kind : (p'.factsOf f.id).privacy = .pub ∨ (p'.factsOf f.id).privacy = .tee
  privacy : (p'.factsOf f.id).privacy = .tee ↔ (p.factsOf f.id).privacy = .tee ∨ f.Reveals
  verified : (p'.factsOf f.id).verifiedOutside = true ↔ (p.factsOf f.id).verifiedOutside = true ∨
    f.canBeExternal = true ∧ ((p'.factsOf f.id).privacy = .tee ∨ f.HasPrivateParameter)

theorem runs_verifyOutside (kind : (p.factsOf f.id).privacy = .pub ∨ (p.factsOf f.id).privacy = .tee)
    (run : Runs (verifyOutside f) p () p') :
    (p' = p ∧ ¬ (f.canBeExternal ∧ ((p.factsOf f.id).privacy = .tee ∨ f.HasPrivateParameter))) ∨
      (p' = p.withFacts f.id { p.factsOf f.id with verifiedOutside := true } ∧
        f.canBeExternal ∧ ((p.factsOf f.id).privacy = .tee ∨ f.HasPrivateParameter)) := by
  unfold verifyOutside at run
  split at run
  next external =>
    replace run := runs_get_bind.1 run
    change Runs (if ((p.factsOf f.id).privacy == .zkp || (p.factsOf f.id).privacy == .tee) = true then _ else _) _ _ _ at run
    obtain pub | tee := kind
    · rw [pub,if_neg (by decide)] at run
      obtain ⟨b,known,run⟩ := runs_ofOutcome_bind.1 run
      have parameters := hasPrivateParameter_eq_ok known
      cases b with
      | true =>
        rw [if_pos rfl] at run
        exact .inr ⟨(runs_updateFacts.1 run).symm,external,.inr (parameters.1 rfl)⟩
      | false =>
        rw [if_neg Bool.false_ne_true] at run
        refine .inl ⟨(runs_pure.1 run).2.symm,?_⟩
        rintro ⟨-,tee | parameter⟩
        · rw [pub] at tee
          cases tee
        · cases parameters.2 parameter
    · rw [tee,if_pos (by decide)] at run
      exact .inr ⟨(runs_updateFacts.1 run).symm,external,.inl tee⟩
  next internal => exact .inl ⟨(runs_pure.1 run).2.symm,fun both => internal both.1⟩

theorem runs_classifyDirectly (plain : p.IsPlain) (own : Encloses p f)
    (kind : (p.factsOf f.id).privacy = .pub ∨ (p.factsOf f.id).privacy = .tee)
    (run : Runs (classifyDirectly f) p () p') : Classified f p p' := by
  obtain ⟨q,raised,run⟩ : ∃ q, ((Raised f.id p q ∧ f.Reveals) ∨ (q = p ∧ ¬ f.Reveals)) ∧ Runs (verifyOutside f) q () p' := by
    cases f with
    | function i name parameters marks results body kind' =>
      change Runs (if (!body.isOmitted) = true then _ else _) _ _ _ at run
      by_cases present : (!body.isOmitted)
      · rw [if_pos present] at run
        obtain ⟨_,q,first,run⟩ := runs_bind.1 run
        refine ⟨q,?_,run⟩
        have child : body ∈ (Node.function i name parameters marks results body kind').children :=
          mem_filter.2 ⟨by simp [visited],present⟩
        refine (runs_raiseDirectly plain own (.child rfl child .self) kind first).imp_right (.imp_right fun hidden => ?_)
        rintro ⟨m,hm,reveal⟩
        rw [hidden m hm] at reveal
        cases reveal
      · rw [if_neg present] at run
        refine ⟨p,.inr ⟨rfl,?_⟩,run⟩
        rintro ⟨m,hm,reveal⟩
        cases body with
        | omitted =>
          cases hm with
          | self => cases reveal
          | child _ hc => cases hc
        | _ => exact present rfl
    | _ =>
      exact absurd run runs_throw_bind
  have first : FactsOnly p q ∧ (∀ j, f.id ≠ j → q.factsOf j = p.factsOf j) ∧
      (q.factsOf f.id).called = (p.factsOf f.id).called ∧
      (q.factsOf f.id).verifiedOutside = (p.factsOf f.id).verifiedOutside ∧
      ((q.factsOf f.id).privacy = .pub ∨ (q.factsOf f.id).privacy = .tee) ∧
      ((q.factsOf f.id).privacy = .tee ↔ (p.factsOf f.id).privacy = .tee ∨ f.Reveals) := by
    obtain ⟨raised,reveals⟩ | ⟨rfl,void⟩ := raised
    · refine ⟨raised.only,raised.other,?_⟩
      rw [raised.own]
      exact ⟨rfl,rfl,.inr rfl,iff_of_true rfl (.inr reveals)⟩
    · exact ⟨refl _,fun _ _ => rfl,rfl,rfl,kind,by simp [void]⟩
  obtain ⟨only,other,called,verified,kind,privacy⟩ := first
  obtain ⟨rfl,quiet⟩ | ⟨rfl,loud⟩ := runs_verifyOutside kind run
  · exact ⟨only,other,called,kind,privacy,by rw [verified,or_iff_left quiet]⟩
  · refine ⟨IsTrans.trans _ _ _ only (.withFacts ..),fun j hj => ?_,?_,?_,?_,?_⟩
    all_goals rw [Program.factsOf_withFacts]
    · rw [if_neg hj,other j hj]
    all_goals rw [if_pos rfl]
    · exact called
    · exact kind
    · exact privacy
    · exact iff_of_true rfl (.inr loud)

end Direct

def Program.At (p : Program) (P : Node → Prop) (k : Nat) : Prop :=
  ∃ f ∈ p.routines, f.id = k ∧ P f

section Passes

variable {p s s' : Program} {f : Node} {closed : Nat → Prop} (ready : Callgraphable p)
include ready

theorem Callgraphable.at_iff {P : Node → Prop} (hf : f ∈ p.routines) : p.At P f.id ↔ P f := by
  constructor
  · rintro ⟨g,hg,same,h⟩
    rwa [← ready.node f hf,← same,ready.node g hg]
  · exact fun h => ⟨f,hf,rfl,h⟩

/-- What is known about the function `k` by its own body and parameters. If `closed`, all is known. -/
structure Found (p : Program) (k : Nat) (closed : Prop) (a : FunctionFacts) : Prop where
  kind : a.privacy = .pub ∨ a.privacy = .tee
  upper : a.privacy = .tee → p.At Reveals k
  full : closed → p.At Reveals k → a.privacy = .tee
  sound : a.verifiedOutside = true → p.At (·.canBeExternal = true) k ∧ (a.privacy = .tee ∨ p.At HasPrivateParameter k)
  noted : closed → p.At (·.canBeExternal = true) k → a.privacy = .tee ∨ p.At HasPrivateParameter k → a.verifiedOutside = true

theorem Callgraphable.found_classifyDirectly (hf : f ∈ p.routines) (classified : Classified f s s')
    (h : ∀ k, Found p k (closed k) (s.factsOf k)) (k : Nat) : Found p k (f.id = k ∨ closed k) (s'.factsOf k) := by
  by_cases same : f.id = k
  · subst same
    obtain ⟨-,-,-,kind,privacy,verified⟩ := classified
    refine ⟨kind,fun tee => ?_,fun _ reveals => ?_,fun known => ?_,fun _ external reason => ?_⟩
    · exact (privacy.1 tee).elim (h f.id).upper (ready.at_iff hf).2
    · exact privacy.2 (.inr ((ready.at_iff hf).1 reveals))
    · obtain before | ⟨external,reason⟩ := verified.1 known
      · have ⟨external,reason⟩ := (h f.id).sound before
        exact ⟨external,reason.imp_left fun tee => privacy.2 (.inl tee)⟩
      · exact ⟨(ready.at_iff hf).2 external,reason.imp_right (ready.at_iff hf).2⟩
    · exact verified.2 (.inr ⟨(ready.at_iff hf).1 external,reason.imp_right (ready.at_iff hf).1⟩)
  · rw [classified.other k same]
    exact { h k with full := fun done => (h k).full (done.resolve_left same)
                     noted := fun done => (h k).noted (done.resolve_left same) }

theorem Callgraphable.found_of_runs {fs : List Node} (all : ∀ f ∈ fs, f ∈ p.routines) (plain : p.IsPlain)
    (only : FactsOnly p s) (h : ∀ k, Found p k (closed k) (s.factsOf k)) (run : Runs (fs.forM classifyDirectly) s () s') :
    FactsOnly p s' ∧ (∀ k, (s'.factsOf k).called = (s.factsOf k).called) ∧
      ∀ k, Found p k (closed k ∨ ∃ f ∈ fs, f.id = k) (s'.factsOf k) := by
  induction fs generalizing s closed with
  | nil =>
    obtain rfl := runs_forM_nil.1 run
    exact ⟨only,fun _ => rfl,by simpa using h⟩
  | cons f fs ih =>
    rw [forall_mem_cons] at all
    obtain ⟨t,first,last⟩ := runs_forM_cons.1 run
    have classified := runs_classifyDirectly (only.isPlain plain) ((ready.encloses f all.1).mono only) (h f.id).kind first
    have found := ready.found_classifyDirectly all.1 classified h
    obtain ⟨only,called,found⟩ := ih all.2 (Trans.trans only classified.only) found last
    refine ⟨only,fun k => (called k).trans ?_,fun k => ?_⟩
    · by_cases same : f.id = k
      · exact same ▸ classified.called
      · rw [classified.other k same]
    · have same : (closed k ∨ ∃ g ∈ f :: fs, g.id = k) ↔ (f.id = k ∨ closed k) ∨ ∃ g ∈ fs, g.id = k := by
        simp only [exists_mem_cons_iff]
        tauto
      rw [propext same]
      exact found k

/-- What is known about the function `k` when callers are looked at: it reveals values, then it is private, and
if it is private then it has `T`. -/
structure Spread (p : Program) (T : Nat → Prop) (k : Nat) (closed : Prop) (a : FunctionFacts) : Prop where
  kind : a.privacy = .pub ∨ a.privacy = .tee
  lower : p.At Reveals k → a.privacy = .tee
  upper : a.privacy = .tee → T k
  full : closed → T k → a.privacy = .tee
  verified : a.verifiedOutside = true ↔ p.At (·.canBeExternal = true) k ∧ (a.privacy = .tee ∨ p.At HasPrivateParameter k)

omit ready

theorem runs_classifyIndirectly (kind : (s.factsOf f.id).privacy = .pub ∨ (s.factsOf f.id).privacy = .tee)
    (run : Runs (classifyIndirectly f) s () s') :
    (s' = s ∧ ((s.factsOf f.id).privacy = .tee ∨ ∀ j ∈ (s.factsOf f.id).called, (s.factsOf j).privacy = .pub)) ∨
    ((∃ j ∈ (s.factsOf f.id).called, (s.factsOf j).privacy ≠ .pub) ∧ FactsOnly s s' ∧
      (∀ k, f.id ≠ k → s'.factsOf k = s.factsOf k) ∧ s'.factsOf f.id = { s.factsOf f.id with
        privacy := .tee, verifiedOutside := (s.factsOf f.id).verifiedOutside || f.canBeExternal }) := by
  replace run := runs_get_bind.1 run
  change Runs (if ((s.factsOf f.id).privacy != .tee) = true then
    if ((s.factsOf f.id).called.any fun k => (s.factsOf k).privacy != .pub) = true then _ else _ else _) _ _ _ at run
  obtain pub | tee := kind
  · rw [if_pos (by rw [pub]; decide)] at run
    split at run
    next calls =>
      obtain ⟨_,t,first,run⟩ := runs_bind.1 run
      have raised := runs_raisePrivacy (.inl pub) first
      refine .inr ⟨by simpa using calls,?_⟩
      split at run
      next external =>
        obtain rfl := runs_updateFacts.1 run
        refine ⟨IsTrans.trans _ _ _ raised.only (.withFacts ..),fun k other => ?_,?_⟩
        · rw [Program.factsOf_withFacts,if_neg other,raised.other k other]
        · rw [Program.factsOf_withFacts,if_pos rfl,raised.own,external,Bool.or_true]
      next internal =>
        obtain ⟨-,rfl⟩ := runs_pure.1 run
        refine ⟨raised.only,raised.other,?_⟩
        rw [raised.own,Bool.eq_false_iff.2 internal,Bool.or_false]
    next void =>
      refine .inl ⟨(runs_pure.1 run).2.symm,.inr ?_⟩
      simpa using void
  · rw [if_neg (by rw [tee]; decide)] at run
    exact .inl ⟨(runs_pure.1 run).2.symm,.inl tee⟩

variable {T : Nat → Prop}

include ready in
theorem Callgraphable.spread_classifyIndirectly (hf : f ∈ p.routines)
    (up : ∀ k j, j ∈ (s.factsOf k).called → T j → T k)
    (down : ∀ k, T k → p.At Reveals k ∨ ∃ j ∈ (s.factsOf k).called, p.At Reveals j)
    (h : ∀ k, Spread p T k (closed k) (s.factsOf k)) (run : Runs (classifyIndirectly f) s () s') :
    FactsOnly s s' ∧ (∀ k, (s'.factsOf k).called = (s.factsOf k).called) ∧
      ∀ k, Spread p T k (f.id = k ∨ closed k) (s'.factsOf k) := by
  obtain ⟨rfl,settled⟩ | ⟨⟨j,hj,private_⟩,only,other,own⟩ := runs_classifyIndirectly (h f.id).kind run
  · refine ⟨refl _,fun _ => rfl,fun k => { h k with full := ?_ }⟩
    rintro (rfl | done) reached
    · obtain tee | pub := settled
      · exact tee
      obtain reveals | ⟨j,hj,reveals⟩ := down f.id reached
      · exact (h f.id).lower reveals
      · have tee := (h j).lower reveals
        rw [pub j hj] at tee
        cases tee
    · exact (h k).full done reached
  · refine ⟨only,fun k => ?_,fun k => ?_⟩
    all_goals by_cases same : f.id = k
    · rw [← same,own]
    · rw [other k same]
    · subst same
      have reached : T f.id := up f.id j hj ((h j).upper ((h j).kind.resolve_left private_))
      rw [own]
      refine ⟨.inr rfl,fun _ => rfl,fun _ => reached,fun _ _ => rfl,?_⟩
      rw [Bool.or_eq_true,(h f.id).verified,ready.at_iff hf]
      simp only [true_or,and_true]
      exact ⟨fun either => either.elim (·.1) id,.inr⟩
    · rw [other k same]
      exact { h k with full := fun done => (h k).full (done.resolve_left same) }

include ready in
theorem Callgraphable.spread_of_runs {fs : List Node} (all : ∀ f ∈ fs, f ∈ p.routines)
    (up : ∀ k j, j ∈ (s.factsOf k).called → T j → T k)
    (down : ∀ k, T k → p.At Reveals k ∨ ∃ j ∈ (s.factsOf k).called, p.At Reveals j)
    (h : ∀ k, Spread p T k (closed k) (s.factsOf k)) (run : Runs (fs.forM classifyIndirectly) s () s') :
    FactsOnly s s' ∧ ∀ k, Spread p T k (closed k ∨ ∃ f ∈ fs, f.id = k) (s'.factsOf k) := by
  induction fs generalizing s closed with
  | nil =>
    obtain rfl := runs_forM_nil.1 run
    exact ⟨refl _,by simpa using h⟩
  | cons f fs ih =>
    rw [forall_mem_cons] at all
    obtain ⟨t,first,last⟩ := runs_forM_cons.1 run
    obtain ⟨only,called,spread⟩ := ready.spread_classifyIndirectly all.1 up down h first
    simp only [← called] at up down
    obtain ⟨only',spread⟩ := ih all.2 up down spread last
    refine ⟨Trans.trans only only',fun k => ?_⟩
    have same : (closed k ∨ ∃ g ∈ f :: fs, g.id = k) ↔ (f.id = k ∨ closed k) ∨ ∃ g ∈ fs, g.id = k := by
      simp only [exists_mem_cons_iff]
      tauto
    rw [propext same]
    exact spread k

theorem keeps_checkInlining (n : Node) : Keeps (Eq : Program → Program → Prop) (checkInlining n) := by
  induction n with
  | step n ih =>
    have last : Keeps (Eq : Program → Program → Prop) (do
        ofOutcome n.ensureWalkable
        n.children.attach.forM fun c => checkInlining c.1) :=
      .bind .ofOutcome fun _ => .forM fun c _ => ih c.1 (part_of_child c.2)
    rw [checkInlining.eq_def]
    split
    · exact .pure
    cases n with
    | call =>
      refine .bind .ask fun runs => ?_
      split
      · refine .bind .ask fun f => .bind .ask fun verified => ?_
        split
        · refine .bind .get fun p => ?_
          split
          · exact .bind .refuse fun _ => last
          · exact last
        · exact last
      · exact last
    | _ => exact last

end Passes

section Loaded

variable {text : String} {settings : Settings} {p q r : Program}
  (linked : Runs (loadLinked text) { Globals.base with settings } () p)
include linked

theorem isPlain_of_runs : p.IsPlain := by
  have same := (findings_of_runs linked).1
  obtain ⟨-,hidden,operators⟩ := base_unclassified
  have hidden' : p.hidden = Globals.base.hidden := congrArg (·.2.1) same
  have operators' : p.privateOperators = Globals.base.privateOperators := congrArg (·.2.2) same
  refine ⟨fun k => ?_,fun k => ?_⟩
  · rw [hidden',Std.TreeMap.getElem?_of_isEmpty hidden]
  · rw [operators',Std.TreeMap.getD_of_isEmpty operators]

/-- The privacy of functions follows what they reach. A function is one for the trusted environment if it
reveals a value or reaches a function that does, and public if not; calls from outside are verified exactly for
functions that can be called from there and are private or get private values. -/
theorem privacy_follows_calls (calls : Runs findCalls p () q) (run : Runs classify q () r) :
    ∀ f ∈ p.routines,
      ((f.Reveals ∨ ∃ d, p.Reaches f d ∧ d.Reveals) ∧ (r.facts f).privacy = .tee ∨
        ¬ (f.Reveals ∨ ∃ d, p.Reaches f d ∧ d.Reveals) ∧ (r.facts f).privacy = .pub) ∧
      ((r.facts f).verifiedOutside = true ↔
        f.canBeExternal = true ∧ ((r.facts f).privacy = .tee ∨ f.HasPrivateParameter)) := by
  have ready := callgraphable_of_runs linked
  have started := runs_findCalls calls
  obtain ⟨between,-⟩ := ready.between (.refl _) (Nat.lt_succ_self p.next) started
  have before := ready.callsOnly (.refl _) started
  have called (k j : Nat) : j ∈ (q.factsOf k).called ↔ Relation.TransGen p.InvokesBetween k j := by
    refine ⟨(between k).upper j,fun path => ?_⟩
    obtain ⟨b,⟨f,hf,same,-⟩,-⟩ := Relation.TransGen.head'_iff.1 path
    exact (between k).full ⟨f,hf,same⟩ j path
  have start (k : Nat) : Found p k False (q.factsOf k) := by
    obtain ⟨-,-,pub,unverified⟩ := unclassified_of_runs linked k
    rw [before.same k]
    exact ⟨.inl pub,by simp [pub],False.elim,by simp [unverified],False.elim⟩
  replace run := runs_get_bind.1 run
  obtain ⟨_,q₁,direct,run⟩ := runs_bind.1 run
  replace run := runs_get_bind.1 run
  obtain ⟨_,q₂,indirect,run⟩ := runs_bind.1 run
  have last := runs_get_bind.1 run
  obtain rfl : q₂ = r := Keeps.forM (fun f _ => keeps_checkInlining f) _ _ _ last
  rw [before.only.routines] at direct
  obtain ⟨only,same,found⟩ := ready.found_of_runs (fun _ => id) (isPlain_of_runs linked) before.only start direct
  rw [only.routines] at indirect
  let T (k : Nat) : Prop := p.At Reveals k ∨ ∃ j, Relation.TransGen p.InvokesBetween k j ∧ p.At Reveals j
  have spread (k : Nat) : Spread p T k False (q₁.factsOf k) := by
    have here {P : Node → Prop} (h : p.At P k) : False ∨ ∃ f ∈ p.routines, f.id = k := by
      obtain ⟨f,hf,same,-⟩ := h
      exact .inr ⟨f,hf,same⟩
    refine ⟨(found k).kind,fun reveals => (found k).full (here reveals) reveals,fun tee => .inl ((found k).upper tee),
      False.elim,(found k).sound,fun both => (found k).noted (here both.1) both.1 both.2⟩
  have up (k j : Nat) (hj : j ∈ (q₁.factsOf k).called) (reached : T j) : T k := by
    rw [same,called] at hj
    obtain reveals | ⟨i,path,reveals⟩ := reached
    · exact .inr ⟨j,hj,reveals⟩
    · exact .inr ⟨i,hj.trans path,reveals⟩
  have down (k : Nat) (reached : T k) : p.At Reveals k ∨ ∃ j ∈ (q₁.factsOf k).called, p.At Reveals j := by
    simpa only [same,called] using reached
  obtain ⟨-,spread⟩ := ready.spread_of_runs (fun _ => id) up down spread indirect
  intro f hf
  have target : T f.id ↔ f.Reveals ∨ ∃ d, p.Reaches f d ∧ d.Reveals := by
    refine or_congr (ready.at_iff hf) ⟨?_,?_⟩
    · rintro ⟨j,path,g,hg,rfl,reveals⟩
      exact ⟨g,ready.node g hg ▸ (ready.reaches_iff hf g.id).1 path,reveals⟩
    · rintro ⟨d,path,reveals⟩
      obtain ⟨numbers,-,hd | idle⟩ := ready.reached hf path
      · exact ⟨d.id,numbers,d,hd,rfl,reveals⟩
      · exact absurd idle reveals.not_idle
  have own := spread f.id
  refine ⟨?_,?_⟩
  · rw [← target]
    obtain pub | tee := own.kind
    · refine .inr ⟨fun reached => ?_,pub⟩
      have tee := own.full (.inr ⟨f,hf,rfl⟩) reached
      rw [pub] at tee
      cases tee
    · exact .inl ⟨own.upper tee,tee⟩
  · rw [← ready.at_iff (P := (·.canBeExternal = true)) hf,← ready.at_iff (P := HasPrivateParameter) hf]
    exact own.verified

end Loaded

/-- A function that reveals a state variable, a function that calls it, and one with a private parameter. -/
def revealingCalls : String :=
  "contract C\x7buint x;function f()internal\x7breveal(x,all);\x7dfunction g()public\x7bf();\x7dfunction h(uint@me y)public\x7b\x7d\x7d"

/-- The first two of three functions are classified for their reveals, the third one is not. -/
def Program.classifiesReveals (p r : Program) : Bool :=
  match p.routines with
  | [f,g,h] => (r.facts f).privacy == .tee && (r.facts g).privacy == .tee && (r.facts h).privacy == .pub &&
    !f.canBeExternal && (r.facts h).verifiedOutside
  | _ => false

theorem revealingCalls_classified : ∃ p q r f g h,
    Runs (loadLinked revealingCalls) { Globals.base with settings := {} } () p ∧ Runs findCalls p () q ∧
      Runs classify q () r ∧ p.routines = [f,g,h] ∧ (f.Reveals ∨ ∃ d, p.Reaches f d ∧ d.Reveals) ∧
      (g.Reveals ∨ ∃ d, p.Reaches g d ∧ d.Reveals) ∧ ¬ (h.Reveals ∨ ∃ d, p.Reaches h d ∧ d.Reveals) ∧
      f.canBeExternal = false ∧ h.HasPrivateParameter := by
  have chars : revealingCalls = String.ofList _ := rfl
  have evaluated : (loadLinked revealingCalls).succeeds { Globals.base with settings := {} } (fun _ p =>
      findCalls.succeeds p fun _ q => classify.succeeds q fun _ r => p.classifiesReveals r) := by
    rw [loadLinked,load_eq chars]
    decide +kernel
  obtain ⟨_,p,loaded,evaluated⟩ := of_succeeds evaluated
  obtain ⟨_,q,found,evaluated⟩ := of_succeeds evaluated
  obtain ⟨_,r,ended,evaluated⟩ := of_succeeds evaluated
  have exact := privacy_follows_calls loaded found ended
  unfold Program.classifiesReveals at evaluated
  split at evaluated
  next f g h listed =>
    simp only [Bool.and_eq_true,beq_iff_eq,Bool.not_eq_true'] at evaluated
    obtain ⟨⟨⟨⟨own,called⟩,plain⟩,inner⟩,verified⟩ := evaluated
    obtain ⟨privacyF,-⟩ := exact f (by simp [listed])
    obtain ⟨privacyG,-⟩ := exact g (by simp [listed])
    obtain ⟨privacyH,verifiedH⟩ := exact h (by simp [listed])
    simp only [own,called,plain,and_true,and_false,or_false,false_or,reduceCtorEq] at privacyF privacyG privacyH
    have hidden := (verifiedH.1 verified).2
    simp only [plain,reduceCtorEq,false_or] at hidden
    exact ⟨p,q,r,f,g,h,loaded,found,ended,listed,privacyF,privacyG,privacyH,inner,hidden⟩
  next => cases evaluated

end Confidential
