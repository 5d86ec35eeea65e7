import Confidential.Proofs.TransitiveEffects

/-!
From a source to its policy.
-/

namespace Confidential

open Node Pass

def OutputOnly (p p' : Program) : Prop :=
  p' = { p with output := p'.output }

/-- Nothing happened but that something was printed or written. -/
def Reported (p p' : Program) : Prop :=
  p' = { p with output := p'.output, files := p'.files }

instance : IsTrans Program Reported where
  trans p q r h h' := by
    unfold Reported at *
    rw [h',h]

theorem Reported.tree {p p' : Program} (h : Reported p p') : p'.tree = p.tree := by
  unfold Reported at h
  rw [h]
  rfl

namespace OutputOnly

variable {p p' : Program} {file : Solc.File}

instance : Std.Refl OutputOnly := ⟨fun _ => rfl⟩

instance : IsTrans Program OutputOnly where
  trans p q r h h' := by
    unfold OutputOnly at *
    rw [h',h]

theorem effectsOnly (h : OutputOnly p p') : EffectsOnly p p' := by
  unfold OutputOnly at h
  unfold EffectsOnly
  rw [h]

theorem reported (h : OutputOnly p p') : Reported p p' := by
  unfold OutputOnly at h
  unfold Reported
  rw [h]

theorem emit {text : String} : Keeps OutputOnly (emit text) :=
  .modify fun _ => rfl

theorem say {level : Int} {line : String} : Keeps OutputOnly (say level line) := by
  refine .bind .get fun p => ?_
  split
  · exact emit
  · exact .pure

theorem coloured {α : Type} {c : Colour} {work : Pass α} (h : Keeps OutputOnly work) : Keeps OutputOnly (coloured c work) :=
  .bind emit fun _ => .bind h fun _ => .bind emit fun _ => .pure

theorem reportProblem {so : Solc.Reported} {problem : Value} :
    Keeps OutputOnly (Solc.reportProblem file so problem) := by
  have rest (fatal : Bool) (so : Solc.Reported) : Keeps OutputOnly (do
      let report ← ofOutcome (Solc.problemReport problem fatal so.last)
      let so := { so with last := some report }
      if fatal then return { so with fatal := so.fatal ++ report }
      if !(← ofOutcome (Solc.isSilent problem)) then Pass.say 1 report
      return so) := by
    refine .bind .ofOutcome fun report => ?_
    dsimp only
    split
    · exact .pure
    · refine .bind .ofOutcome fun silent => ?_
      split
      · exact .bind say fun _ => .pure
      · exact .pure
  refine .bind .ofOutcome fun fatal => coloured (.bind .ofOutcome fun located => ?_)
  dsimp only
  split
  · exact .bind .ofOutcome fun place => .bind .pure (rest fatal)
  · exact .bind .pure (rest fatal)

theorem reportAll {output : Value} : Keeps OutputOnly (Solc.reportAll file output) := by
  have rest (problems : List Value) : Keeps OutputOnly (do
      let so ← problems.foldlM (Solc.reportProblem file) {}
      Pass.say 1 ""
      if so.failed then throw (.solidityErrors so.fatal)) := by
    refine .bind (.foldlM (fun _ _ _ => reportProblem) _) fun so => .bind say fun _ => ?_
    split
    · exact .throw
    · exact .pure
  refine .bind .ofOutcome fun found => ?_
  split
  · refine .bind say fun _ => .bind .ofOutcome fun errors => ?_
    split
    · exact .bind .ofOutcome rest
    · exact .bind .throw rest
  · exact .pure

end OutputOnly

namespace Pass

variable {α : Type} {p p' : Program}

variable {x : Pass α} {a : α}

theorem runs_attempt {r : Outcome α} : Runs (attempt x) p r p' ↔ x.run p = (r,p') := by
  rw [Runs,show (attempt x).run p = (.ok (x.run p).1,(x.run p).2) from rfl]
  cases x.run p
  rw [Prod.mk.injEq,Except.ok.injEq,Prod.mk.injEq]

theorem runs_rename {f : Fault → Fault} : Runs (rename f x) p a p' ↔ Runs x p a p' := by
  unfold rename
  simp only [runs_bind,runs_attempt]
  constructor
  · rintro ⟨r,q,tried,run⟩
    cases r with
    | ok =>
      obtain ⟨rfl,rfl⟩ := runs_pure.1 run
      exact tried
    | error => exact absurd run runs_throw
  · exact fun run => ⟨.ok a,p',run,runs_pure.2 ⟨rfl,rfl⟩⟩

theorem runs_step {name : String} (run : Runs (step name x) p a p') :
    ∃ q q', OutputOnly p q ∧ Runs x q a q' ∧ OutputOnly q' p' := by
  obtain ⟨_,q,first,run⟩ := runs_bind.1 run
  obtain ⟨b,q',work,run⟩ := runs_bind.1 run
  obtain ⟨_,r,last,run⟩ := runs_bind.1 run
  obtain ⟨rfl,rfl⟩ := runs_pure.1 run
  exact ⟨q,q',OutputOnly.say _ _ _ first,work,OutputOnly.say _ _ _ last⟩

end Pass

namespace Pipeline

variable {text : String} {policy : PrivacyPolicy} {p : Program}

theorem outputOnly_checkSolidity {code : String} {a : Solc.Answer} : Keeps OutputOnly (checkSolidity code a) := by
  intro p u p' run
  obtain ⟨q,q',before,work,after⟩ := runs_step run
  have checked : OutputOnly q q' := OutputOnly.reportAll q u q' (runs_rename.1 work)
  exact Trans.trans before (Trans.trans checked after)

/-- A source with a policy: the linked program `s`, and the program `q` in which its effects are known. -/
structure Drawn (policy : PrivacyPolicy) (s q : Program) : Prop where
  linked : LinkedSource s Globals.base.next s.tree
  effects : Runs findEffects s () q
  policy_eq : PrivacyPolicy.ofProgram q = .ok policy

theorem drawn_of_analyse {start q p' : Program} (initial : Initial start)
    (first : start.next = Globals.base.next) (loaded : Runs (load text) start () q) (same : Reported q p)
    (run : Runs analyse p policy p') : ∃ s r, Drawn policy s r ∧ OutputOnly r p' := by
  obtain ⟨p₁,_,before,run,after⟩ := runs_step run
  replace run := runs_get_bind.1 run
  obtain ⟨_,r,placed,run⟩ := runs_bind.1 run
  replace run := runs_get_bind.1 run
  obtain ⟨_,s,linked,run⟩ := runs_bind.1 run
  obtain ⟨_,q',effects,last⟩ := runs_bind.1 (runs_rename.1 run)
  obtain ⟨drawn,rfl⟩ := runs_ask.1 last
  have only : Reported q p₁ := Trans.trans same before.reported
  have tree : p₁.tree = q.tree := only.tree
  have kept : r.tree = q.tree := by
    obtain ⟨l,-,rest⟩ := runs_ask_bind.1 placed
    rw [← runs_modify.1 rest]
    exact tree
  rw [tree,only] at placed
  rw [kept] at linked
  have source := initial.linkedSource loaded placed (runs_rename.1 linked)
  rw [first,← source.tree_eq] at source
  exact ⟨s,q',⟨source,effects,drawn⟩,after⟩

theorem drawn_of_runs {compiler : Option Solc.Answer} {settings : Settings}
    (run : Runs (process text compiler) { Globals.base with settings } policy p) :
    ∃ s q, Drawn policy s q ∧ OutputOnly q p := by
  obtain ⟨_,p₁,parsed,run⟩ := runs_bind.1 run
  obtain ⟨start,q,printed,loaded,printed'⟩ := runs_step parsed
  obtain ⟨code,-,run⟩ := runs_ask_bind.1 run
  have analysed : ∃ p₂, OutputOnly q p₂ ∧ Runs analyse p₂ policy p := by
    dsimp only at run
    split at run
    · obtain ⟨u,p₂,checked,run⟩ := runs_bind.1 run
      exact ⟨p₂,Trans.trans printed' (outputOnly_checkSolidity _ _ _ checked),run⟩
    · exact ⟨p₁,printed',run⟩
  obtain ⟨p₂,checked,run⟩ := analysed
  have initial : Initial start := by
    rw [printed]
    exact (initial_base settings).printed _ _
  have first : start.next = Globals.base.next := by rw [printed]
  exact drawn_of_analyse initial first (runs_rename.1 loaded) checked.reported run

end Pipeline

end Confidential
