import Confidential.Proofs.Readings

/-!
Expressions of names, numbers, operators and parentheses as the tokens that they are written with.
-/

namespace Confidential

open List

namespace Token

def typeWord (text : String) : Token :=
  ⟨if Surface.Rules.elementaryWords.contains text then .fixed else .sizedType,text,default⟩

/-- Could the token go on with the expression before it as an index, a member, a call, call options
or a step? -/
def opensSuffix (t : Token) : Bool :=
  ["[",".","\x7b","(","++","--"].any t.isFixed

def level? (t : Token) : Option Nat :=
  if t.kind == .fixed then (Surface.Rules.levelOf t.text).map Prod.fst else none

theorem level?_eq (t : Token) :
    t.level? = (if t.kind == .fixed then Surface.Rules.levelOf t.text else none).map Prod.fst := by
  rw [level?]
  split <;> rfl

/-- The tokens go on with no expression whose operators have at least the given level. -/
structure Closes (level : Nat) (ts : List Token) : Prop where
  exists_head : ∃ t rest, ts = t :: rest ∧ t.opensSuffix = false ∧ ∀ l ∈ t.level?, l < level

theorem Closes.mono {k l : Nat} {ts : List Token} (h : Closes k ts) (le : k ≤ l) : Closes l ts := by
  obtain ⟨t,rest,eq,no,lower⟩ := h.exists_head
  exact ⟨t,rest,eq,no,fun m hm => (lower m hm).trans_le le⟩

end Token

namespace Surface

open Token (sign ofKind)

/-- The tokens of an expression that has only names, numbers, operators and parentheses. -/
def Expr.tokens : Expr → List Token
  | .unary _ s operand => sign s.text :: operand.tokens
  | .binary _ s left right => left.tokens ++ sign s.text :: right.tokens
  | .conditional _ condition yes no => condition.tokens ++ sign "?" :: yes.tokens ++ sign ":" :: no.tokens
  | .assign _ s left right => left.tokens ++ sign s.text :: right.tokens
  | .tuple _ [some e] => sign "(" :: e.tokens ++ [sign ")"]
  | .name w => [ofKind .name w.text]
  | .number _ hexadecimal digits => [ofKind (if hexadecimal then .hexadecimal else .decimal) digits]
  | _ => []

namespace Expr

/-- The level of the outermost operator. -/
def level : Expr → Nat
  | .assign .. => 1
  | .conditional .. => 2
  | .binary _ s _ _ => ((Rules.levelOf s.text).map Prod.fst).getD 0
  | .unary .. => Rules.prefixLevel
  | _ => Rules.prefixLevel + 1

def lastLevel : Expr → Nat
  | .assign .. | .conditional .. => 2
  | .binary _ s _ _ => ((Rules.levelOf s.text).map fun l => if l.2 then l.1 else l.1 + 1).getD 0
  | .unary .. => Rules.prefixLevel
  | _ => Rules.prefixLevel + 1

def firstLevel (s : String) : Nat :=
  ((Rules.levelOf s).map fun l => if l.2 then l.1 + 1 else l.1).getD 0

/-- Every operand binds at least as tightly as its place asks, and no form of the expression is
left out of `Expr.tokens`. -/
def fits : Expr → Bool
  | .unary _ s operand => ["+","-","!","~"].contains s.text && operand.fits && Rules.prefixLevel ≤ operand.level
  | .binary p s left right =>
    left.fits && right.fits && 2 < (Expr.binary p s left right).level &&
      firstLevel s.text ≤ left.level && (Expr.binary p s left right).lastLevel ≤ right.level
  | .conditional _ condition yes no => condition.fits && yes.fits && no.fits && 3 ≤ condition.level && 2 ≤ no.level
  | .assign _ s left right =>
    (Rules.levelOf s.text == some (1,false)) && left.fits && right.fits && 1 ≤ left.level && 2 ≤ right.level
  | .tuple _ [some e] => e.fits
  | .name .. | .number .. => true
  | _ => false

end Expr

end Surface

namespace Token

/-- Can the token be the first one of an expression whose tokens are written out? -/
def opensOperand (t : Token) : Bool :=
  [.name,.decimal,.hexadecimal].contains t.kind || ["+","-","!","~","("].any t.isFixed

theorem isFixed_of_opensOperand {t : Token} (h : t.opensOperand) {text : String}
    (closing : [")",","].contains text) : t.isFixed text = false := by
  by_cases fixed : t.kind = .fixed
  · simp [opensOperand,isFixed,fixed] at h closing ⊢
    rintro rfl
    obtain same | same := closing <;> simp [same] at h
  · exact isFixed_of_kind fixed text

theorem closes_sign (text : String) (h : [",",")","]",":",";"].contains text) (k : Nat) (rest : List Token) :
    Closes k (sign text :: rest) := by
  refine ⟨_,rest,rfl,?_,?_⟩
  · simp only [contains_eq_mem,mem_cons,not_mem_nil,or_false,decide_eq_true_eq] at h
    obtain rfl | rfl | rfl | rfl | rfl := h <;> decide
  · have void : (sign text).level? = none := by
      simp only [contains_eq_mem,mem_cons,not_mem_nil,or_false,decide_eq_true_eq] at h
      obtain rfl | rfl | rfl | rfl | rfl := h <;> decide
    simp [void]

end Token

namespace Surface

open Token (sign ofKind)

theorem Expr.components_of_fits {p : Pos} {components : List (Option Expr)} (h : (Expr.tuple p components).fits) :
    ∃ e, components = [some e] := by
  match components with
  | [some e] => exact ⟨e,rfl⟩
  | [] | [none] | _ :: _ :: _ => simp [Expr.fits] at h

theorem Expr.tokens_starts (e : Expr) (h : e.fits) :
    ∃ t rest, e.tokens = t :: rest ∧ t.pos = default ∧ t.opensOperand := by
  cases e with
  | unary _ s =>
    simp only [Expr.fits,Bool.and_eq_true] at h
    refine ⟨sign s.text,_,by rw [Expr.tokens],rfl,?_⟩
    have := h.1.1
    simp only [contains_eq_mem,mem_cons,not_mem_nil,or_false,decide_eq_true_eq] at this
    obtain eq | eq | eq | eq := this <;> rw [eq] <;> decide
  | binary _ s left =>
    simp only [Expr.fits,Bool.and_eq_true] at h
    obtain ⟨t,rest,eq,opens⟩ := tokens_starts left h.1.1.1.1
    exact ⟨t,_,by rw [Expr.tokens,eq]; rfl,opens⟩
  | conditional _ condition =>
    simp only [Expr.fits,Bool.and_eq_true] at h
    obtain ⟨t,rest,eq,opens⟩ := tokens_starts condition h.1.1.1.1
    exact ⟨t,_,by rw [Expr.tokens,eq]; rfl,opens⟩
  | assign _ s left =>
    simp only [Expr.fits,Bool.and_eq_true] at h
    obtain ⟨t,rest,eq,opens⟩ := tokens_starts left h.1.1.1.2
    exact ⟨t,_,by rw [Expr.tokens,eq]; rfl,opens⟩
  | tuple _ =>
    obtain ⟨e,rfl⟩ := components_of_fits h
    exact ⟨sign "(",_,rfl,rfl,by decide⟩
  | name => exact ⟨_,_,by rw [Expr.tokens],rfl,rfl⟩
  | number _ hexadecimal => exact ⟨_,_,by rw [Expr.tokens],rfl,by cases hexadecimal <;> rfl⟩
  | _ => simp [Expr.fits] at h

theorem Rules.levelOf_bounds {s : String} {l : Nat} {toRight : Bool} (h : levelOf s = some (l,toRight)) :
    1 ≤ l ∧ l < prefixLevel ∧ (toRight ↔ l = 2 ∨ l = 13) ∧ (l = 2 ↔ s = "?") ∧ (sign s).opensSuffix = false := by
  obtain ⟨x,found,eq⟩ := Option.map_eq_some_iff.1 h
  have all : ∀ x ∈ levels, 1 ≤ x.1 ∧ x.1 < prefixLevel ∧ (x.2.1 ↔ x.1 = 2 ∨ x.1 = 13) ∧
      ∀ s ∈ x.2.2, (x.1 = 2 ↔ s = "?") ∧ (sign s).opensSuffix = false := by decide
  obtain ⟨rfl,rfl⟩ := Prod.mk.inj eq
  have known := all x (mem_of_find?_eq_some found)
  have mem : s ∈ x.2.2 := by simpa using find?_some found
  exact ⟨known.1,known.2.1,known.2.2.1,known.2.2.2 s mem⟩

variable {e : Expr}

theorem Expr.level_binary_lt (p : Pos) (s : Word) (left right : Expr) : (Expr.binary p s left right).level < Rules.prefixLevel := by
  rw [Expr.level]
  cases h : Rules.levelOf s.text with
  | none => decide
  | some => exact (Rules.levelOf_bounds h).2.1

theorem Expr.level_le_lastLevel (e : Expr) : e.level ≤ e.lastLevel := by
  cases e with
  | binary p s =>
    rw [Expr.level,Expr.lastLevel]
    cases Rules.levelOf s.text with
    | none => exact le_refl 0
    | some l =>
      obtain ⟨l,toRight⟩ := l
      cases toRight <;> simp
  | assign => exact Nat.le_succ 1
  | _ => exact le_refl _

theorem Expr.lastLevel_of_prefix (h : e.level = Rules.prefixLevel) : e.lastLevel = Rules.prefixLevel := by
  cases e with
  | binary p s left right => exact absurd h (level_binary_lt p s left right).ne
  | unary => rfl
  | _ => simp [Expr.level,Rules.prefixLevel] at h

theorem Expr.lt_lastLevel {s : String} {l : Nat} {toRight : Bool} (h : Rules.levelOf s = some (l,toRight))
    (tight : Expr.firstLevel s ≤ e.level) : l < e.lastLevel := by
  obtain ⟨pos,lt,right,-,-⟩ := Rules.levelOf_bounds h
  have first : Expr.firstLevel s = if toRight then l + 1 else l := by rw [Expr.firstLevel,h]; rfl
  rw [first] at tight
  have le := e.level_le_lastLevel
  by_contra no
  obtain ⟨same,here⟩ : l = e.level ∧ toRight = false := by
    cases toRight with
    | true => simp at tight; omega
    | false => simp at tight; exact ⟨by omega,rfl⟩
  -- The operator has the level of the operand and groups to the left; so does the operand.
  cases e with
  | binary p s' =>
    rw [Expr.level] at same tight
    rw [Expr.lastLevel] at no
    cases h' : Rules.levelOf s'.text with
    | none => simp [h'] at same; omega
    | some l' =>
      obtain ⟨l',toRight'⟩ := l'
      obtain ⟨-,-,right',-,-⟩ := Rules.levelOf_bounds h'
      simp only [h',Option.map_some,Option.getD_some] at same no
      subst same
      have : toRight' = false := by
        cases toRight' with
        | false => rfl
        | true => exact absurd (right.2 (right'.1 rfl)) (by simp [here])
      simp [this] at no
  | conditional =>
    rw [Expr.level] at same
    simp [here,same] at right
  | assign =>
    rw [Expr.level] at same
    simp [Expr.lastLevel,same] at no
  | _ =>
    simp [Expr.level,Rules.prefixLevel] at same lt
    omega

namespace Rules

open Confidential.Parser

/-- The tokens of every expression that fits and has at most `n` tokens are read as this expression. -/
structure Complete (r : Rules) (n : Nat) : Prop where
  reads : ∀ (e : Expr) (level : Nat) (rest : List Token), e.fits = true → level ≤ e.level → e.tokens.length ≤ n →
    Token.Closes level rest → Reads (r.expr .free level) (e.tokens ++ rest) e.still rest

def extended (r : Rules) (head : String) (base : Expr) : Parser Expr :=
  r.bracketed default head base <|> membered default base <|> r.optioned .free default base
    <|> r.called .free default base <|> stepped default base

theorem suffixed_succ (r : Rules) (head : String) (n : Nat) (base : Expr) :
    r.suffixed .free default head (n + 1) base = ((do
      let longer ← r.extended head base
      r.suffixed .free default head n longer) <|> pure base) := rfl

namespace Complete

variable {r : Rules} {n : Nat} (h : r.Complete n)
include h

variable {toRight : Bool} {e left : Expr} {rest : List Token} {k l m : Nat} {p : Pos} {s : String}
  {t : Token}

variable {right : Expr}

theorem reads_expression (fits : e.fits) (short : e.tokens.length ≤ n)
    (closes : Token.Closes 0 rest) : Reads r.expression (e.tokens ++ rest) e.still rest :=
  h.reads e 0 rest fits (Nat.zero_le _) short closes

theorem reads_component (fits : e.fits) (short : e.tokens.length ≤ n) (closes : Token.Closes 0 rest) :
    Reads r.component (e.tokens ++ rest) (some e.still) rest := by
  obtain ⟨t,more,eq,-,opens⟩ := e.tokens_starts fits
  have read := h.reads_expression fits short closes
  rw [eq] at read ⊢
  refine (reads_peek _ _).bind ?_
  rw [if_neg (by simp [Token.isFixed_of_opensOperand opens])]
  exact read.map

theorem reads_tuple (fits : e.fits) (short : e.tokens.length ≤ n) (rest : List Token) :
    Reads r.tuple ((Expr.tuple p [some e]).tokens ++ rest) (Expr.tuple p [some e]).still rest := by
  have component := h.reads_component fits short (Token.closes_sign ")" (by decide) 0 rest)
  have inner : Reads (separated r.component ",") (e.tokens ++ sign ")" :: rest) [some e.still] (sign ")" :: rest) :=
    component.bind ((reads_many_nil (fails_sign (by decide) rest).bind).bind (reads_pure _ _))
  rw [Expr.tokens,append_assoc]
  exact (reads_sign "(" _).bind (inner.bind ((reads_sign ")" rest).bind (reads_pure _ _)))

/-! ### Operands -/

omit h in
theorem goes_prefixed (r : Rules) (other : ["me","all","tee","payable","type"].any t.isFixed = false)
    (rest : List Token) :
    Goes (r.operand .free) (t :: rest) (r.prefixed .free <|> r.create .free <|> r.tuple <|> r.inlineArray
      <|> (do return .name (← Parser.name)) <|> truth <|> number <|> quoted <|> (do return .elementary (← elementary)))
      (t :: rest) := by
  simp only [any_cons,any_nil,Bool.or_eq_false_iff,and_true] at other
  obtain ⟨me,all,tee,payable,type⟩ := other
  refine Goes.trans (Fails.orElse ?_) (Goes.trans (Fails.orElse ?_) (Fails.orElse ?_))
  · exact (fails_fixed me rest).bind.or ((fails_fixed all rest).bind.or (fails_fixed tee rest).bind)
  · exact (fails_fixed payable rest).bind
  · exact (fails_fixed type rest).bind

omit h in
theorem goes_create (r : Rules)
    (other : ["me","all","tee","payable","type","++","--","+","-","!","~"].any t.isFixed = false) (rest : List Token) :
    Goes (r.operand .free) (t :: rest) (r.create .free <|> r.tuple <|> r.inlineArray
      <|> (do return .name (← Parser.name)) <|> truth <|> number <|> quoted <|> (do return .elementary (← elementary)))
      (t :: rest) := by
  simp only [any_cons,any_nil,Bool.or_eq_false_iff,and_true] at other
  obtain ⟨me,all,tee,payable,type,up,down,plus,minus,no,flip⟩ := other
  refine (goes_prefixed r (by simp [*]) rest).trans (Fails.orElse (Fails.or ?_ ?_))
  · exact (fails_oneOf (by simp [up,down]) rest).bind
  · exact (fails_oneOf (by simp [plus,minus,no,flip]) rest).bind

omit h in
theorem goes_simple (r : Rules)
    (other : ["me","all","tee","payable","type","++","--","+","-","!","~","new","(","["].any t.isFixed = false)
    (rest : List Token) :
    Goes (r.operand .free) (t :: rest) ((do return .name (← Parser.name)) <|> truth <|> number <|> quoted
      <|> (do return .elementary (← elementary))) (t :: rest) := by
  simp only [any_cons,any_nil,Bool.or_eq_false_iff,and_true] at other
  obtain ⟨me,all,tee,payable,type,up,down,plus,minus,no,flip,new,round,square⟩ := other
  refine (goes_create r (by simp [*]) rest).trans (Goes.trans (Fails.orElse ?_) (Goes.trans (Fails.orElse ?_) (Fails.orElse ?_)))
  · exact (fails_fixed new rest).bind
  · exact (fails_fixed round rest).bind
  · exact (fails_fixed square rest).bind

theorem reads_tuple_operand (fits : e.fits) (short : e.tokens.length ≤ n) (rest : List Token) :
    Reads (r.operand .free) ((Expr.tuple p [some e]).tokens ++ rest) (Expr.tuple p [some e]).still rest := by
  have read := h.reads_tuple (p := p) fits short rest
  refine (goes_create r (t := sign "(") (by decide) _).trans (Goes.trans (Fails.orElse ?_) (Reads.orElse read))
  exact (fails_sign (by decide) _).bind

omit h in
theorem reads_name (r : Rules) (w : Word) (rest : List Token) :
    Reads (r.operand .free) ((Expr.name w).tokens ++ rest) (Expr.name w).still rest := by
  rw [Expr.tokens]
  exact (goes_simple r (by simp [Token.isFixed_of_kind,ofKind]) rest).trans
    (Reads.orElse ((reads_ofKind _ _ rest).bind (reads_pure _ _)))

omit h in
theorem reads_number (r : Rules) (p : Pos) (hexadecimal : Bool) (digits : String) (rest : List Token) :
    Reads (r.operand .free) ((Expr.number p hexadecimal digits).tokens ++ rest) (Expr.number p hexadecimal digits).still rest := by
  rw [Expr.tokens]
  have number : Goes (r.operand .free) (ofKind (if hexadecimal then .hexadecimal else .decimal) digits :: rest)
      (number <|> quoted <|> (do return .elementary (← elementary)))
      (ofKind (if hexadecimal then .hexadecimal else .decimal) digits :: rest) := by
    refine (goes_simple r (by cases hexadecimal <;> simp [Token.isFixed_of_kind,ofKind]) rest).trans ?_
    exact Goes.trans (Fails.orElse (fails_ofKind (by cases hexadecimal <;> decide) _ rest).bind)
      (Fails.orElse (fails_ofKind (by cases hexadecimal <;> decide) _ rest).bind)
  refine number.trans (Reads.orElse ?_)
  cases hexadecimal with
  | false => exact Reads.orElse ((reads_ofKind .decimal digits rest).bind (reads_pure _ _))
  | true =>
    exact Goes.trans (Fails.orElse (fails_ofKind (k := .hexadecimal) (by decide) digits rest).bind)
      ((reads_ofKind .hexadecimal digits rest).bind (reads_pure _ _))

theorem reads_prefixed (fits : e.fits) (level : e.level = prefixLevel)
    (short : e.tokens.length ≤ n + 1) (closes : Token.Closes prefixLevel rest) :
    Reads (r.operand .free) (e.tokens ++ rest) e.still rest := by
  cases e with
  | unary p s operand =>
    simp only [Expr.fits,Bool.and_eq_true,decide_eq_true_eq] at fits
    obtain ⟨⟨signs,inner⟩,tight⟩ := fits
    simp only [Expr.tokens,length_cons,cons_append] at short ⊢
    have read := h.reads operand prefixLevel rest inner tight (by omega) closes
    simp only [contains_eq_mem,mem_cons,not_mem_nil,or_false,decide_eq_true_eq] at signs
    refine (goes_prefixed r ?_ _).trans (Reads.orElse (Goes.trans (Fails.orElse ?_) ?_))
    · obtain eq | eq | eq | eq := signs <;> rw [eq] <;> decide
    · refine (fails_oneOf (t := sign s.text) ?_ _).bind
      obtain eq | eq | eq | eq := signs <;> rw [eq] <;> decide
    · refine (reads_oneOf (t := sign s.text) ?_ _).bind (read.bind (reads_pure _ _))
      obtain eq | eq | eq | eq := signs <;> rw [eq] <;> decide
  | binary p s left right => exact absurd level (Expr.level_binary_lt p s left right).ne
  | _ => simp [Expr.level,prefixLevel] at level

omit h in
theorem fails_optioned (r : Rules) (base : Expr) (no : t.isFixed "\x7b" = false) (rest : List Token) :
    Fails (r.optioned .free default base) (t :: rest) := by
  refine Reads.fails_bind (fun reach => ⟨reach,rfl⟩ : Reads (ahead opensBlock) _ (opensBlock (t :: rest)) _) ?_
  exact Fails.bind (fails_fixed no rest).bind

omit h in
theorem fails_extended (r : Rules) (head : String) (base : Expr) (no : t.opensSuffix = false) (rest : List Token) :
    Fails (r.extended head base) (t :: rest) := by
  simp only [Token.opensSuffix,any_cons,any_nil,Bool.or_eq_false_iff,and_true] at no
  obtain ⟨square,dot,brace,round,up,down⟩ := no
  refine (fails_fixed square rest).bind.or ((fails_fixed dot rest).bind.or ((fails_optioned r base brace rest).or (Fails.or ?_ ?_)))
  · exact (fails_fixed round rest).bind.whole.bind.bind
  · exact (fails_oneOf (by simp [up,down]) rest).bind

theorem reads_operand (fits : e.fits) (level : e.level = prefixLevel + 1) (short : e.tokens.length ≤ n + 1)
    (rest : List Token) : Reads (r.operand .free) (e.tokens ++ rest) e.still rest := by
  cases e with
  | tuple =>
    obtain ⟨e,rfl⟩ := Expr.components_of_fits fits
    rw [Expr.tokens,cons_append,length_cons,length_append,length_singleton] at short
    exact h.reads_tuple_operand (e := e) (by simpa [Expr.fits] using fits) (by omega) rest
  | name w => exact reads_name r w rest
  | number p hexadecimal digits => exact reads_number r p hexadecimal digits rest
  | binary p s left right => exact absurd level (by have := Expr.level_binary_lt p s left right; omega)
  | unary => simp [Expr.level] at level
  | conditional | assign => simp [Expr.level,prefixLevel] at level
  | _ => simp [Expr.fits] at fits

/-! ### Operations -/

omit h in
theorem reads_suffixed_end (r : Rules) (head : String) (m : Nat) (base : Expr) (closes : Token.Closes k rest) :
    Reads (r.suffixed .free default head m base) rest base rest := by
  obtain ⟨t,more,rfl,no,-⟩ := closes.exists_head
  cases m with
  | zero => exact reads_pure _ _
  | succ =>
    rw [suffixed_succ]
    exact Goes.trans (Fails.orElse (fails_extended r head base no more).bind) (reads_pure _ _)

omit h in
theorem reads_climb_end (r : Rules) (m : Nat) (left : Expr) (closes : Token.Closes k rest) :
    Reads (r.climb .free default k m left) rest left rest := by
  obtain ⟨t,more,rfl,-,lower⟩ := closes.exists_head
  cases m with
  | zero => exact reads_pure _ _
  | succ =>
    refine (reads_peek t more).bind ?_
    split
    · next l toRight known =>
      rw [if_pos (lower l (by rw [Token.level?_eq,known]; rfl))]
      exact reads_pure _ _
    · exact reads_pure _ _

omit h in
theorem goes_climb_step {longer : Expr} {ts : List Token} (known : levelOf s = some (l,toRight)) (le : k ≤ l)
    (reads : Reads (r.operation .free default left ⟨default,s⟩ l toRight) ts longer rest) :
    Goes (r.climb .free default k (m + 1) left) (sign s :: ts) (r.climb .free default k m longer) rest := by
  refine (reads_peek _ _).bind ?_
  simp only [sign,BEq.rfl,if_true,known]
  rw [if_neg (by omega)]
  exact (reads_sign s ts).bind (reads.bind (Goes.refl _ _))

theorem reads_operation {s : Word}
    (known : levelOf s.text = some (l,toRight)) (high : 2 < l) (fits : right.fits) (short : right.tokens.length ≤ n)
    (tight : (if toRight then l else l + 1) ≤ right.level) (closes : Token.Closes (if toRight then l else l + 1) rest) :
    Reads (r.operation .free default left.still s.still l toRight) (right.tokens ++ rest) (Expr.binary p s left right).still rest := by
  have ask : (s.still.text == "?") = false := by
    have := (levelOf_bounds known).2.2.2.1
    exact beq_eq_false_iff_ne.2 fun eq => absurd (this.2 eq) (by omega)
  have assign : (l == 1) = false := beq_eq_false_iff_ne.2 (by omega)
  unfold operation
  rw [ask,assign]
  exact (h.reads right _ rest fits tight short closes).bind (reads_pure _ _)

theorem reads_assignment {s : Word}
    (known : levelOf s.text = some (1,false)) (fits : right.fits) (short : right.tokens.length ≤ n)
    (tight : 2 ≤ right.level) (closes : Token.Closes 2 rest) :
    Reads (r.operation .free default left.still s.still 1 false) (right.tokens ++ rest) (Expr.assign p s left right).still rest := by
  have ask : (s.still.text == "?") = false := by
    have := (levelOf_bounds known).2.2.2.1
    exact beq_eq_false_iff_ne.2 fun eq => absurd (this.2 eq) (by omega)
  unfold operation
  rw [ask]
  exact (h.reads right _ rest fits tight short closes).bind (reads_pure _ _)

theorem reads_conditional {condition yes no : Expr} (fitsYes : yes.fits)
    (fitsNo : no.fits) (shortYes : yes.tokens.length ≤ n) (shortNo : no.tokens.length ≤ n) (tight : 2 ≤ no.level)
    (closes : Token.Closes 2 rest) :
    Reads (r.operation .free default condition.still ⟨default,"?"⟩ 2 true) (yes.tokens ++ (sign ":" :: (no.tokens ++ rest)))
      (Expr.conditional p condition yes no).still rest :=
  (h.reads_expression fitsYes shortYes (Token.closes_sign ":" (by decide) 0 _)).bind
    ((reads_sign ":" _).bind ((h.reads no 2 rest fitsNo tight shortNo closes).bind (reads_pure _ _)))

omit h in
theorem closes_operator (known : levelOf s = some (l,toRight))
    (tight : Expr.firstLevel s ≤ e.level) (rest : List Token) : Token.Closes e.lastLevel (sign s :: rest) := by
  refine ⟨_,rest,rfl,(levelOf_bounds known).2.2.2.2,fun l' hl => ?_⟩
  have level : (sign s).level? = some l := by rw [Token.level?_eq]; simp [sign,known]
  obtain rfl : l = l' := by simpa [level] using hl
  exact Expr.lt_lastLevel known tight

omit h in
theorem goes_operated {x : Parser Expr} {tail : List Token} {m' : Nat}
    (eq : e.tokens = left.tokens ++ sign s :: tail) (known : levelOf s = some (l,toRight)) (le : k ≤ l)
    (enough : e.tokens.length ≤ m) (used : m ≤ m' + left.tokens.length)
    (before : Goes x (left.tokens ++ sign s :: (tail ++ rest)) (r.climb .free default k m' left.still) (sign s :: (tail ++ rest)))
    (reads : Reads (r.operation .free default left.still ⟨default,s⟩ l toRight) (tail ++ rest) e.still rest) :
    ∃ m', m ≤ m' + e.tokens.length ∧ Goes x (e.tokens ++ rest) (r.climb .free default k m' e.still) rest := by
  have length : e.tokens.length = left.tokens.length + (tail.length + 1) := by rw [eq,length_append,length_cons]
  obtain ⟨m',rfl⟩ : ∃ k, m' = k + 1 := ⟨m' - 1,by omega⟩
  refine ⟨m',by omega,?_⟩
  rw [eq,append_assoc]
  exact before.trans (goes_climb_step known le reads)

theorem goes_climb (head : String) (e : Expr) (rest : List Token) (fits : e.fits) (level : k ≤ e.level)
    (closes : Token.Closes e.lastLevel rest) (short : e.tokens.length ≤ n + 1) {m₁ : Nat} (enough : e.tokens.length ≤ m) :
    ∃ m', m ≤ m' + e.tokens.length ∧
      Goes (r.operand .free >>= fun base => r.suffixed .free default head m₁ base >>= r.climb .free default k m) (e.tokens ++ rest)
        (r.climb .free default k m' e.still) rest := by
  have alone (read : Reads (r.operand .free) (e.tokens ++ rest) e.still rest) : ∃ m', m ≤ m' + e.tokens.length ∧
        Goes (r.operand .free >>= fun base => r.suffixed .free default head m₁ base >>= r.climb .free default k m) (e.tokens ++ rest)
          (r.climb .free default k m' e.still) rest :=
    ⟨m,Nat.le_add_right m _,read.bind (Reads.bind (reads_suffixed_end r head m₁ e.still closes) (Goes.refl _ _))⟩
  by_cases tightest : e.level = prefixLevel + 1
  · exact alone (h.reads_operand fits tightest short rest)
  by_cases signed : e.level = prefixLevel
  · exact alone (h.reads_prefixed fits signed short (closes.mono (Expr.lastLevel_of_prefix signed).le))
  cases e with
  | binary p s left right =>
    simp only [Expr.fits,Bool.and_eq_true,decide_eq_true_eq] at fits
    obtain ⟨⟨⟨⟨fitsLeft,fitsRight⟩,high⟩,tight⟩,tightRight⟩ := fits
    have eq : (Expr.binary p s left right).tokens = left.tokens ++ sign s.text :: right.tokens := by rw [Expr.tokens]
    have length := congrArg List.length eq
    rw [length_append,length_cons] at length
    cases known : levelOf s.text with
    | none => simp [Expr.level,known] at high
    | some l =>
      obtain ⟨l,toRight⟩ := l
      simp only [Expr.level,Expr.lastLevel,known,Option.map_some,Option.getD_some] at level high closes tightRight
      have le : l ≤ left.level := by
        rw [Expr.firstLevel,known] at tight
        cases toRight <;> simp at tight <;> omega
      obtain ⟨m',used,before⟩ := goes_climb head left (sign s.text :: (right.tokens ++ rest)) fitsLeft (level.trans le)
        (closes_operator known tight _) (by omega) (show left.tokens.length ≤ m by omega)
      exact goes_operated eq known level enough used before
        (h.reads_operation known high fitsRight (by omega) tightRight closes)
  | assign p s left right =>
    simp only [Expr.fits,Bool.and_eq_true,decide_eq_true_eq,beq_iff_eq] at fits
    obtain ⟨⟨⟨⟨known,fitsLeft⟩,fitsRight⟩,tight⟩,tightRight⟩ := fits
    have eq : (Expr.assign p s left right).tokens = left.tokens ++ sign s.text :: right.tokens := by rw [Expr.tokens]
    have length := congrArg List.length eq
    rw [length_append,length_cons] at length
    have first : Expr.firstLevel s.text ≤ left.level := by
      rw [Expr.firstLevel,known]
      exact tight
    obtain ⟨m',used,before⟩ := goes_climb head left (sign s.text :: (right.tokens ++ rest)) fitsLeft (level.trans tight)
      (closes_operator known first _) (by omega) (show left.tokens.length ≤ m by omega)
    exact goes_operated eq known level enough used before
      (h.reads_assignment known fitsRight (by omega) tightRight closes)
  | conditional p condition yes no =>
    simp only [Expr.fits,Bool.and_eq_true,decide_eq_true_eq] at fits
    obtain ⟨⟨⟨⟨fitsFirst,fitsYes⟩,fitsNo⟩,tight⟩,tightNo⟩ := fits
    have eq : (Expr.conditional p condition yes no).tokens =
        condition.tokens ++ sign "?" :: (yes.tokens ++ sign ":" :: no.tokens) := by simp [Expr.tokens]
    have length := congrArg List.length eq
    simp only [length_append,length_cons] at length
    have known : levelOf "?" = some (2,true) := by decide
    obtain ⟨m',used,before⟩ := goes_climb head condition (sign "?" :: ((yes.tokens ++ sign ":" :: no.tokens) ++ rest)) fitsFirst
      (level.trans (Nat.le_of_succ_le tight)) (closes_operator known (by exact tight) _) (by omega)
      (show condition.tokens.length ≤ m by omega)
    refine goes_operated eq known level enough used before ?_
    rw [append_assoc]
    exact h.reads_conditional fitsYes fitsNo (by omega) (by omega) tightNo closes
  | _ => simp [Expr.level] at tightest signed
termination_by sizeOf e

theorem deeper : r.deeper.Complete (n + 1) := by
  refine ⟨fun e level rest fits le short closes => ?_⟩
  obtain ⟨t,more,eq,still,-⟩ := e.tokens_starts fits
  obtain ⟨m',-,goes⟩ := h.goes_climb t.text e rest fits le (closes.mono (le.trans e.level_le_lastLevel)) short
    (show e.tokens.length ≤ (e.tokens ++ rest).length by simp)
  have start : Reads peek (e.tokens ++ rest) t (e.tokens ++ rest) := by
    rw [eq]
    exact reads_peek t (more ++ rest)
  refine start.bind ((reads_remaining _).bind ?_)
  rw [still]
  exact goes.trans (reads_climb_end r m' e.still closes)

end Complete

theorem complete_depth (n : Nat) : (depth n).Complete n := by
  induction n with
  | zero =>
    refine ⟨fun e level rest fits le short closes => ?_⟩
    obtain ⟨t,more,eq,-⟩ := e.tokens_starts fits
    simp [eq] at short
  | succ n ih => exact ih.deeper

end Rules
end Surface
end Confidential
