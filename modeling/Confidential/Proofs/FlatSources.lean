import Mathlib
import Confidential.Compiler

/-!
Contracts, interfaces and libraries stand on their own in a source: none of them is read inside of
another.
-/

namespace Confidential

namespace Parser

variable {α β : Type}

def Gives (P : α → List Token → Prop) (p : Parser α) : Prop :=
  ∀ ts reach a rest reach', p ts reach = (some (a,rest),reach') → P a rest

/-- Nothing is left but the end. -/
def AtEnd (ts : List Token) : Prop :=
  ∃ t rest, ts = t :: rest ∧ t.kind = .finish

namespace Gives

variable {P : α → List Token → Prop} {Q : β → List Token → Prop}

variable {a : α} {p : Parser α}

theorem pure (h : ∀ rest, P a rest) : Gives P (pure a) := by
  intro ts reach b rest reach' read
  cases read
  exact h ts

theorem bind {f : α → Parser β} (hp : Gives P p) (hf : ∀ a rest, P a rest → Gives Q (f a)) :
    Gives Q (p >>= f) := by
  intro ts reach b rest reach' read
  rcases first : p ts reach with ⟨_ | ⟨a,ts'⟩,r⟩ <;> simp only [Bind.bind,first] at read
  · cases read
  · exact hf a ts' (hp _ _ _ _ _ first) _ _ _ _ _ read

theorem skip {f : α → Parser β} (hf : ∀ a, Gives Q (f a)) : Gives Q (p >>= f) :=
  bind (P := fun _ _ => True) (fun _ _ _ _ _ _ => trivial) fun a _ _ => hf a

theorem finish {R : α → Prop} (h : R a) :
    Gives (fun a rest => R a ∧ AtEnd rest) (do Parser.finish; return a) := by
  rintro (_ | ⟨t,ts⟩) reach b rest reach' read
  · cases read
  · by_cases last : t.kind = .finish
    · simp only [Parser.finish,Parser.peek,Bind.bind,last,BEq.rfl,if_true] at read
      cases read
      exact ⟨h,t,ts,rfl,last⟩
    · simp [Parser.finish,Parser.peek,Parser.fail,Bind.bind,last] at read

theorem orElse {q : Parser α} (hp : Gives P p) (hq : Gives P q) : Gives P (p <|> q) := by
  intro ts reach a rest reach' read
  rcases first : p ts reach with ⟨_ | done,r⟩ <;> simp only [HOrElse.hOrElse,OrElse.orElse,Parser.orElse,first] at read
  · exact hq _ _ _ _ _ read
  · exact hp _ _ _ _ _ (first.trans read)

theorem many {R : α → Prop} (hp : Gives (fun a _ => R a) p) : Gives (fun as _ => ∀ a ∈ as, R a) (many p) := by
  have repeated (n : Nat) : Gives (fun as _ => ∀ a ∈ as, R a) (repeated p n) := by
    induction n with
    | zero => exact pure (by simp)
    | succ n ih =>
      refine orElse (hp.bind fun a _ ha => ih.bind fun as _ has => pure fun _ => ?_) (pure (by simp))
      exact List.forall_mem_cons.2 ⟨ha,has⟩
  exact skip repeated

theorem oneOf {texts : List String} : Gives (fun w _ => texts.contains w.text = true) (oneOf texts) := by
  rintro (_ | ⟨t,ts⟩) reach w rest reach' read
  · cases read
  · by_cases found : texts.any t.isFixed
    · simp only [Parser.oneOf,Parser.satisfy,Bind.bind,found,if_true] at read
      cases read
      obtain ⟨x,mem,fixed⟩ := List.any_eq_true.1 found
      simp only [Token.isFixed,Bool.and_eq_true,beq_iff_eq] at fixed
      obtain ⟨-,rfl⟩ := fixed
      exact List.contains_iff_mem.2 mem
    · simp [Parser.oneOf,Parser.satisfy,Bind.bind,found] at read

theorem closely (hp : Gives P p) : Gives P (closely p) := by
  intro ts reach a rest reach' read
  cases inside : p ts { reach with inner := ts.length + 1 } with
  | mk =>
    unfold Parser.closely at read
    rw [inside] at read
    cases read
    exact hp _ _ _ _ _ inside

end Gives

end Parser

namespace Surface

def Decl.isMember : Decl → Bool
  | .pragma .. | .importFile .. | .contract .. | .interface .. | .library .. | .constant .. => false
  | .function _ special name _ _ _ _ => !special || ["fallback","receive"].contains name.text
  | _ => true

def Decl.isFlat : Decl → Bool
  | .contract _ _ parts | .interface _ _ _ parts | .library _ _ parts => parts.all isMember
  | .pragma .. | .importFile .. | .constant .. => true
  | d => d.isMember

theorem Decl.isFlat_of_isMember {d : Decl} (h : d.isMember) : d.isFlat := by
  cases d <;> first | exact h | cases h

def Source.isFlat : Source → Bool
  | .unit _ parts => parts.all Decl.isFlat
  | .part _ d => d.isMember
  | _ => true

namespace Rules

open Confidential.Parser

variable (r : Rules) (statement : Parser Stmt)

theorem gives_function : Gives (fun d _ => d.isMember = true) (r.function statement) := by
  refine .skip fun _ => .bind (P := fun e _ => (!e.1 || ["fallback","receive"].contains e.2.text) = true) ?_ fun e _ h => ?_
  · exact .orElse (.skip fun _ => .pure fun _ => rfl) (Gives.oneOf.bind fun _ _ h => .pure fun _ => h)
  · exact .skip fun _ => .skip fun _ => .skip fun _ => .skip fun _ => .pure fun _ => h

theorem gives_part : Gives (fun d _ => d.isMember = true) (r.part statement) := by
  unfold part
  refine .orElse ?_ <| .orElse ?_ <| .orElse ?_ <| .orElse ?_ <| .orElse ?_ <| .orElse ?_ <| .orElse ?_ <|
    .orElse ?_ <| .orElse ?_ <| .orElse ?_ <| .orElse ?_ ?_
  on_goal 2 => exact r.gives_function statement
  all_goals
    repeat refine .skip fun _ => ?_
    exact .pure fun _ => rfl

theorem gives_parts : Gives (fun ds _ => ∀ d ∈ ds, d.isMember = true) (r.parts statement) :=
  .skip fun _ => (r.gives_part statement).many.bind fun _ _ h => .skip fun _ => .pure fun _ => h

theorem gives_topLevel : Gives (fun d _ => d.isFlat = true) (r.topLevel statement) := by
  have members {f : List Decl → Decl} (flat : ∀ ds, (∀ d ∈ ds, d.isMember) → (f ds).isFlat) :
      Gives (fun d _ => d.isFlat = true) (do return f (← r.parts statement)) :=
    (r.gives_parts statement).bind fun ds _ h => .pure fun _ => flat ds h
  unfold topLevel
  refine .orElse ?_ <| .orElse ?_ <| .orElse ?_ <| .orElse ?_ <| .orElse ?_ <| .orElse ?_ <| .orElse ?_ <|
    .orElse ?_ <| .orElse ?_ <| .orElse ?_ ?_
  -- Only contracts, interfaces and libraries have members.
  on_goal 3 => exact .skip fun _ => .skip fun _ => members fun _ => List.all_eq_true.2
  on_goal 3 => exact .skip fun _ => .skip fun _ => .skip fun _ => members fun _ => List.all_eq_true.2
  on_goal 3 => exact .skip fun _ => .skip fun _ => members fun _ => List.all_eq_true.2
  on_goal 3 => exact fun _ _ _ _ _ read => Decl.isFlat_of_isMember (r.gives_function statement _ _ _ _ _ read)
  all_goals
    repeat refine .skip fun _ => ?_
    exact .pure fun _ => rfl

theorem gives_source : Gives (fun s rest => s.isFlat = true ∧ AtEnd rest) (r.source statement) := by
  unfold source single
  refine .orElse (.skip fun _ => .orElse ?_ <| .orElse ?_ <| .orElse ?_ ?_) (.skip fun _ => ?_)
  iterate 3 · exact .skip fun _ => .finish rfl
  · exact (r.gives_part statement).bind fun _ _ h => .finish h
  · exact (r.gives_topLevel statement).many.closely.bind fun _ _ h => .finish (List.all_eq_true.2 h)

end Rules

theorem isFlat_of_parse {text : String} {s : Source} (h : Source.parse text = .ok s) : s.isFlat := by
  obtain ⟨rest,reach,read⟩ := Parser.run_eq_ok_iff.1 h
  exact (Rules.gives_source _ _ _ _ _ _ _ read).1

end Surface

end Confidential
