import Confidential.Proofs.Placeless

/-!
What a reader does at given tokens, however far earlier attempts came.
-/

namespace Confidential

open List

namespace Token

/-- A keyword, an operator or a bracket, without a place. -/
def sign (text : String) : Token :=
  ⟨.fixed,text,default⟩

def ofKind (k : Kind) (text : String) : Token :=
  ⟨k,text,default⟩

theorem isFixed_of_kind {t : Token} (h : t.kind ≠ .fixed) (text : String) : t.isFixed text = false := by
  simp [isFixed,h]

end Token

namespace Parser

variable {α β : Type} {p q : Parser α} {ts mid rest : List Token} {a : α}

def Goes (p : Parser α) (ts : List Token) (q : Parser α) (rest : List Token) : Prop :=
  ∀ reach, ∃ reach', p ts reach = q rest reach'

def Reads (p : Parser α) (ts : List Token) (a : α) (rest : List Token) : Prop :=
  Goes p ts (pure a) rest

def Fails (p : Parser α) (ts : List Token) : Prop :=
  ∀ reach, ∃ reach', p ts reach = (none,reach')

theorem Goes.refl (p : Parser α) (ts : List Token) : Goes p ts p ts :=
  fun reach => ⟨reach,rfl⟩

theorem Goes.trans {s : Parser α} (h : Goes p ts q mid) (h' : Goes q mid s rest) : Goes p ts s rest := by
  intro reach
  obtain ⟨reach₁,eq₁⟩ := h reach
  obtain ⟨reach₂,eq₂⟩ := h' reach₁
  exact ⟨reach₂,eq₁.trans eq₂⟩

theorem reads_pure (a : α) (ts : List Token) : Reads (pure a) ts a ts :=
  Goes.refl _ _

theorem Goes.bind {k : α → Parser β} (h : Goes p ts q rest) : Goes (p >>= k) ts (q >>= k) rest := by
  intro reach
  obtain ⟨reach',eq⟩ := h reach
  refine ⟨reach',?_⟩
  dsimp only [Bind.bind,instMonad]
  rw [eq]

theorem Reads.bind {k : α → Parser β} {s : Parser β} (h : Reads p ts a mid) (next : Goes (k a) mid s rest) :
    Goes (p >>= k) ts s rest :=
  (Goes.bind h).trans next

theorem Reads.map {f : α → β} (h : Reads p ts a rest) : Reads (f <$> p) ts (f a) rest :=
  h.bind (reads_pure _ _)

theorem Fails.bind {k : α → Parser β} (h : Fails p ts) : Fails (p >>= k) ts := by
  intro reach
  obtain ⟨reach',eq⟩ := h reach
  refine ⟨reach',?_⟩
  dsimp only [Bind.bind,instMonad]
  rw [eq]

theorem Reads.fails_bind {k : α → Parser β} (h : Reads p ts a mid) (next : Fails (k a) mid) : Fails (p >>= k) ts := by
  intro reach
  obtain ⟨reach₁,eq₁⟩ := h reach
  obtain ⟨reach₂,eq₂⟩ := next reach₁
  refine ⟨reach₂,?_⟩
  dsimp only [Bind.bind,instMonad]
  rw [eq₁]
  exact eq₂

theorem fails_fail (ts : List Token) : Fails (fail (α := α)) ts :=
  fun reach => ⟨reach.stop ts.length,rfl⟩

theorem Reads.orElse (h : Reads p ts a rest) : Reads (p <|> q) ts a rest := by
  intro reach
  obtain ⟨reach',eq⟩ := h reach
  refine ⟨reach',?_⟩
  dsimp only [HOrElse.hOrElse,OrElse.orElse,Parser.orElse]
  rw [eq]
  rfl

theorem Fails.orElse (h : Fails p ts) : Goes (p <|> q) ts q ts := by
  intro reach
  obtain ⟨reach',eq⟩ := h reach
  refine ⟨reach',?_⟩
  dsimp only [HOrElse.hOrElse,OrElse.orElse,Parser.orElse]
  rw [eq]

theorem Fails.or (h : Fails p ts) (h' : Fails q ts) : Fails (p <|> q) ts := by
  intro reach
  obtain ⟨reach₁,eq₁⟩ := h.orElse (q := q) reach
  obtain ⟨reach₂,eq₂⟩ := h' reach₁
  exact ⟨reach₂,eq₁.trans eq₂⟩

theorem Fails.whole (h : Fails p ts) : Fails (whole p) ts := by
  intro reach
  obtain ⟨reach',eq⟩ := h { reach with inner := ts.length + 1 }
  unfold Parser.whole
  rw [eq]
  exact ⟨_,rfl⟩

theorem Reads.closely (h : Reads p ts a rest) : Reads (closely p) ts a rest := by
  intro reach
  obtain ⟨reach',eq⟩ := h { reach with inner := ts.length + 1 }
  unfold Parser.closely
  rw [eq]
  exact ⟨_,rfl⟩

variable {t : Token}

variable {text : String} {texts : List String} {k : Token.Kind}

theorem reads_peek (t : Token) (rest : List Token) : Reads peek (t :: rest) t (t :: rest) :=
  fun reach => ⟨reach,rfl⟩

theorem reads_remaining (ts : List Token) : Reads remaining ts ts.length ts :=
  fun reach => ⟨reach,rfl⟩

theorem reads_here (t : Token) (rest : List Token) : Reads here (t :: rest) t.pos (t :: rest) :=
  (reads_peek _ _).bind (reads_pure _ _)

theorem reads_nextIs (t : Token) (rest : List Token) (text : String) :
    Reads (nextIs text) (t :: rest) (t.isFixed text) (t :: rest) :=
  (reads_peek _ _).bind (reads_pure _ _)

theorem reads_satisfy (test : Token → Bool) (h : test t) (rest : List Token) :
    Reads (satisfy test) (t :: rest) t rest := by
  intro reach
  simp only [satisfy,h,if_true]
  exact ⟨reach,rfl⟩

theorem fails_satisfy (test : Token → Bool) (h : test t = false) (rest : List Token) :
    Fails (satisfy test) (t :: rest) := by
  intro reach
  simp only [satisfy,h,Bool.false_eq_true,if_false]
  exact ⟨_,rfl⟩

theorem reads_fixed (h : t.isFixed text) (rest : List Token) : Reads (fixed text) (t :: rest) (word t) rest :=
  (reads_satisfy _ h rest).bind (reads_pure _ _)

theorem fails_fixed (h : t.isFixed text = false) (rest : List Token) : Fails (fixed text) (t :: rest) :=
  (fails_satisfy _ h rest).bind

theorem reads_oneOf (h : texts.any t.isFixed) (rest : List Token) : Reads (oneOf texts) (t :: rest) (word t) rest :=
  (reads_satisfy _ h rest).bind (reads_pure _ _)

theorem fails_oneOf (h : texts.any t.isFixed = false) (rest : List Token) : Fails (oneOf texts) (t :: rest) :=
  (fails_satisfy _ h rest).bind

theorem reads_kind (h : t.kind = k) (rest : List Token) : Reads (kind k) (t :: rest) (word t) rest :=
  (reads_satisfy (fun t => t.kind == k) (beq_iff_eq.2 h) rest).bind (reads_pure _ _)

theorem fails_kind (h : t.kind ≠ k) (rest : List Token) : Fails (kind k) (t :: rest) :=
  (fails_satisfy (fun t => t.kind == k) (beq_eq_false_iff_ne.2 h) rest).bind

theorem reads_repeated {γ : Type} {follows : List Token → Prop} {f : γ → List Token} {g : γ → α} (cs : List γ) {n : Nat}
    (reads : ∀ c ∈ cs, ∀ rest, follows rest → Reads p (f c ++ rest) (g c) rest)
    (starts : ∀ c ∈ cs, ∀ rest, follows (f c ++ rest)) (last : follows rest) (stops : Fails p rest) (enough : cs.length ≤ n) :
    Reads (repeated p n) (cs.flatMap f ++ rest) (cs.map g) rest := by
  induction cs generalizing n with
  | nil =>
    cases n with
    | zero => exact reads_pure _ _
    | succ => exact Goes.trans (Fails.orElse stops.bind) (reads_pure _ _)
  | cons c cs ih =>
    obtain ⟨n,rfl⟩ : ∃ m, n = m + 1 := Nat.exists_eq_add_of_le' (Nat.lt_of_lt_of_le (Nat.succ_pos _) enough)
    have next : follows (cs.flatMap f ++ rest) := by
      cases cs with
      | nil => exact last
      | cons d ds =>
        simpa only [flatMap_cons,append_assoc] using starts d (by simp) (ds.flatMap f ++ rest)
    have more := ih (fun d hd => reads d (by simp [hd])) (fun d hd => starts d (by simp [hd])) (Nat.le_of_succ_le_succ enough)
    rw [flatMap_cons,append_assoc]
    exact Reads.orElse ((reads c (by simp) _ next).bind (more.bind (reads_pure _ _)))

theorem reads_many {γ : Type} {follows : List Token → Prop} {f : γ → List Token} {g : γ → α} (cs : List γ)
    (reads : ∀ c ∈ cs, ∀ rest, follows rest → Reads p (f c ++ rest) (g c) rest)
    (starts : ∀ c ∈ cs, ∀ rest, follows (f c ++ rest)) (last : follows rest) (stops : Fails p rest)
    (taken : ∀ c ∈ cs, f c ≠ []) : Reads (many p) (cs.flatMap f ++ rest) (cs.map g) rest := by
  refine (reads_remaining _).bind (reads_repeated cs reads starts last stops ?_)
  have short : cs.length ≤ (cs.flatMap f).length := by
    rw [length_flatMap]
    have each : ∀ x ∈ cs.map fun c => (f c).length, 1 ≤ x := by
      intro x hx
      obtain ⟨c,hc,rfl⟩ := mem_map.1 hx
      exact length_pos_iff.2 (taken c hc)
    simpa using length_le_sum_of_one_le _ each
  rw [length_append]
  exact Nat.le_add_right_of_le short

theorem reads_many_nil (h : Fails p ts) : Reads (many p) ts [] ts := by
  refine (reads_remaining _).bind ?_
  cases ts.length with
  | zero => exact reads_pure _ _
  | succ => exact Goes.trans (Fails.orElse h.bind) (reads_pure _ _)

theorem reads_sign (text : String) (rest : List Token) : Reads (fixed text) (.sign text :: rest) ⟨default,text⟩ rest :=
  reads_fixed (t := .sign text) (beq_self_eq_true text) rest

theorem fails_sign {other : String} (h : text ≠ other) (rest : List Token) : Fails (fixed other) (.sign text :: rest) :=
  fails_fixed (t := .sign text) (beq_eq_false_iff_ne.2 h) rest

theorem reads_ofKind (k : Token.Kind) (text : String) (rest : List Token) :
    Reads (kind k) (.ofKind k text :: rest) ⟨default,text⟩ rest :=
  reads_kind (t := .ofKind k text) rfl rest

theorem fails_ofKind {l : Token.Kind} (h : k ≠ l) (text : String) (rest : List Token) : Fails (kind l) (.ofKind k text :: rest) :=
  fails_kind (t := .ofKind k text) h rest

end Parser
end Confidential
