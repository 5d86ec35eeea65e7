import Confidential.Proofs.ExpressionTexts
import Confidential.Proofs.Numerals

/-!
Numbers and quoted texts: what a literal on its own is read as, which number it denotes and which
characters, which of this is left once it is printed, and which types hold a number.
-/

namespace Confidential

open List

variable {k : Kind} {text : String}

/-! ### One token on its own -/

theorem Token.eq_of_still {t : Token} (h : t.still = ofKind k text) : t = ⟨k,text,t.pos⟩ := by
  obtain ⟨rfl,rfl,-⟩ := Token.mk.inj h
  rfl

theorem Token.visible_piece {word : String} (cut : cutUp text.toList = [ofKind k word,ofKind .finish ""]) :
    ∃ p₀ p₁ p₂, visible (ofSource ("SOL " ++ text)) = [⟨.fixed,"SOL",p₀⟩,⟨k,word,p₁⟩,⟨.finish,"",p₂⟩] := by
  have marked : (visible (ofSource ("SOL " ++ text))).map still = [sign "SOL",ofKind k word,ofKind .finish ""] :=
    (cutUp_marked text).trans (congrArg _ cut)
  obtain ⟨t₀,rest,eq,same₀,more⟩ := map_eq_cons_iff.1 marked
  obtain ⟨t₁,rest,rfl,same₁,more⟩ := map_eq_cons_iff.1 more
  obtain ⟨t₂,rfl,same₂⟩ := map_eq_singleton_iff.1 more
  refine ⟨t₀.pos,t₁.pos,t₂.pos,?_⟩
  rw [eq,← eq_of_still same₀,← eq_of_still same₁,← eq_of_still same₂]

theorem Token.cutUp_of_lexeme {s : String} (token : lexeme s.toList = (k,s.length)) (full : s.toList ≠ [])
    (seen : k ≠ .hidden) : cutUp s.toList = [ofKind k s,ofKind .finish ""] := by
  have clear : Clear (ofKind k s) [] := by
    rw [Clear]
    simpa [ofKind] using token
  have cut := cutUp_append clear ⟨full,seen⟩
  rwa [append_nil,cutUp_nil] at cut

/-! ### Numbers -/

namespace Literal

def isPowerMark (c : Char) : Bool :=
  c == 'e' || c == 'E'

def digit (c : Char) : Nat :=
  (Text.digitValue? c).getD 0

/-- The number that digits denote; underscores are ignored. -/
def value (base : Nat) (cs : List Char) : Nat :=
  Nat.ofDigits base ((cs.filter (· != '_')).reverse.map digit)

/-- The number that a literal denotes. Behind a mark stands the power of ten that the digits before
it are multiplied with. -/
def denoted (hexadecimal : Bool) (cs : List Char) : Nat :=
  if hexadecimal then value 16 (cs.drop 2)
  else value 10 (cs.takeWhile fun c => !isPowerMark c) * 10 ^ value 10 ((cs.dropWhile fun c => !isPowerMark c).drop 1)

/-- No power of ten is written with a mark. -/
def isPlain (hexadecimal : Bool) (cs : List Char) : Bool :=
  hexadecimal || cs.all fun c => !isPowerMark c

theorem value_eq_foldl (base : Nat) (cs : List Char) :
    value base cs = (cs.filter (· != '_')).foldl (fun v c => v * base + digit c) 0 := by
  rw [value,Nat.ofDigits_eq_foldr,foldr_map,foldr_reverse]
  simp only [Nat.cast_id,Nat.add_comm,Nat.mul_comm]

theorem denoted_plain {cs : List Char} (plain : ∀ c ∈ cs, isPowerMark c = false) : denoted false cs = value 10 cs := by
  have all : cs.takeWhile (fun c => !isPowerMark c) = cs := takeWhile_eq_self_iff.2 (by simpa using plain)
  have void : cs.dropWhile (fun c => !isPowerMark c) = [] := dropWhile_eq_nil_iff.2 (by simpa using plain)
  simp [denoted,all,void,value]

end Literal

namespace Text

open Literal

variable {base : Nat} {d : Char → Bool} {cs : List Char}

theorem digitsValue?_of_groupedRun (digits : ∀ c, d c → ∃ k < base, digitValue? c = some k)
    (run : Token.groupedRun d cs = cs.length) (v : Nat) :
    digitsValue? base v cs = some ((cs.filter (· != '_')).foldl (fun v c => v * base + digit c) v) := by
  fun_induction Token.groupedRun d cs generalizing v with
  | case1 => rfl
  | case2 c _ isDigit ih =>
    obtain ⟨k,small,eq⟩ := digits c isDigit
    have other : c ≠ '_' := by
      rintro rfl
      cases eq
    simp only [length_cons,Nat.add_right_cancel_iff] at run
    simp [digitsValue?,eq,small,other,digit,ih run]
  | case3 => simp at run
  | case4 c _ _ isDigit ih =>
    obtain ⟨k,small,eq⟩ := digits c isDigit
    have other : c ≠ '_' := by
      rintro rfl
      cases eq
    simp only [length_cons,Nat.add_right_cancel_iff] at run
    rw [digitsValue?.eq_3 _ _ _ _ (by simp [other])]
    simp [eq,small,other,digit,ih run]
  | case5 => simp at run

theorem natural?_of_digitsRun (digits : ∀ c, d c → ∃ k < base, digitValue? c = some k) (full : cs ≠ [])
    (run : Token.digitsRun d cs = cs.length) : natural? base cs = some (value base cs) := by
  cases cs with
  | nil => exact absurd rfl full
  | cons c =>
    rw [Token.digitsRun] at run
    split at run
    next isDigit =>
      obtain ⟨k,small,eq⟩ := digits c isDigit
      have other : c ≠ '_' := by
        rintro rfl
        cases eq
      rw [length_cons,Nat.add_right_cancel_iff] at run
      rw [natural?,digitsValue?.eq_3 _ _ _ _ (by simp [other]),eq,value_eq_foldl]
      · simp [small,other,digit,digitsValue?_of_groupedRun digits run,eq]
      · rintro ⟨⟩
      · exact fun tail eq => other (List.cons.inj eq).1
    next => simp at run

theorem isPowerMark_of_digitsValue? {v r : Nat} (h : digitsValue? 10 v cs = some r) : ∀ c ∈ cs, isPowerMark c = false := by
  have small {c : Char} {k : Nat} (eq : digitValue? c = some k) (lt : k < 10) : isPowerMark c = false := by
    rw [Bool.eq_false_iff]
    intro mark
    simp only [isPowerMark,Bool.or_eq_true,beq_iff_eq] at mark
    obtain rfl | rfl := mark <;> exact absurd lt (by rw [← Option.some.inj eq]; decide)
  fun_induction digitsValue? 10 v cs with
  | case1 => simp
  | case2 _ _ _ _ eq lt ih => simpa [small eq lt] using ⟨rfl,ih h⟩
  | case5 _ _ _ _ _ eq lt ih => simpa [small eq lt] using ih h
  | _ => cases h

theorem isPowerMark_of_natural? {v : Nat} (h : natural? 10 cs = some v) : ∀ c ∈ cs, isPowerMark c = false := by
  unfold natural? at h
  split at h
  · cases h
  · cases h
  · exact isPowerMark_of_digitsValue? h

end Text

namespace Token

open Literal

variable {cs : List Char}

variable {c : Char}

theorem numberLexeme_of_lexeme {k : Kind} {n : Nat} (h : lexeme cs = (k,n)) (number : k.isNumber) :
    numberLexeme cs = (k,n) ∧ cs ≠ [] := by
  cases cs with
  | nil =>
    obtain ⟨rfl,-⟩ := Prod.mk.inj h
    cases number
  | cons c u =>
    have start := isDigit_of_lexeme (c := c) (u := u) (by rw [h]; exact number)
    rw [lexeme] at h
    simp only [start.1,start.2,Bool.false_eq_true,if_false,if_true] at h
    exact ⟨h,by simp⟩

theorem isDigit_lt (h : c.isDigit) : ∃ k < 10, Text.digitValue? c = some k := by
  simp only [Char.isDigit,Bool.and_eq_true,decide_eq_true_eq,ge_iff_le] at h
  have high : c.toNat ≤ 57 := UInt32.le_iff_toNat_le.1 h.2
  exact ⟨c.toNat - 48,by omega,if_pos (by simpa [Char.le_def] using h)⟩

theorem isHexDigit_lt (h : isHexDigit c) : ∃ k < 16, Text.digitValue? c = some k := by
  by_cases decimal : c.isDigit
  · obtain ⟨k,small,eq⟩ := isDigit_lt decimal
    exact ⟨k,by omega,eq⟩
  have range : ('0' ≤ c && c ≤ '9') = false := by
    simpa [Char.isDigit,Char.le_def] using decimal
  unfold Text.digitValue?
  simp only [isHexDigit,decimal,range,Bool.false_or,Bool.or_eq_true,Bool.false_eq_true,if_false] at h ⊢
  split_ifs with lower upper
  · simp only [Bool.and_eq_true,decide_eq_true_eq] at lower
    have high : c.toNat ≤ 102 := UInt32.le_iff_toNat_le.1 lower.2
    exact ⟨_,by omega,rfl⟩
  · simp only [Bool.and_eq_true,decide_eq_true_eq] at upper
    have high : c.toNat ≤ 70 := UInt32.le_iff_toNat_le.1 upper.2
    exact ⟨_,by omega,rfl⟩
  · simp_all

theorem natural?_decimal (token : lexeme cs = (.decimal,cs.length)) (plain : ∀ c ∈ cs, isPowerMark c = false) :
    Text.natural? 10 cs = some (value 10 cs) := by
  obtain ⟨number,full⟩ := numberLexeme_of_lexeme token rfl
  have run : decimalRun cs = cs.length := by
    simp only [numberLexeme] at number
    split_ifs at number
    · cases (Prod.mk.inj number).1
    · exact (Prod.mk.inj number).2
    · cases (Prod.mk.inj number).1
  refine Text.natural?_of_digitsRun (fun c => isDigit_lt) full ?_
  have le := digitsRun_le (d := Char.isDigit) cs
  unfold decimalRun at run
  dsimp only at run
  split at run
  next c rest eq =>
    have mem : c ∈ cs := mem_of_mem_drop (by rw [eq]; exact mem_cons_self)
    have void := plain c mem
    rw [isPowerMark] at void
    simpa [void] using run
  next => exact run

theorem natural?_hexadecimal (token : lexeme cs = (.hexadecimal,cs.length)) :
    Text.natural? 16 (cs.drop 2) = some (value 16 (cs.drop 2)) := by
  obtain ⟨number,-⟩ := numberLexeme_of_lexeme token rfl
  obtain ⟨x,rest,rfl,mark⟩ := marked_of_lexeme (congrArg Prod.fst token)
  have run : hexRun ('0' :: x :: rest) = rest.length + 2 := by
    simp only [numberLexeme] at number
    split_ifs at number
    · cases (Prod.mk.inj number).1
    · cases (Prod.mk.inj number).1
    · exact (Prod.mk.inj number).2
  rw [hexRun] at run
  have digits : digitsRun isHexDigit rest = rest.length ∧ rest ≠ [] := by
    split_ifs at run with h
    simp only [Bool.and_eq_true,decide_eq_true_eq] at h
    refine ⟨by omega,?_⟩
    rintro rfl
    simp [digitsRun] at h
  exact Text.natural?_of_digitsRun (fun c => isHexDigit_lt) digits.2 digits.1

end Token

namespace Literal

variable {v : Int} {w : Nat}

/-- The values of the integer type with `w` bits, one of them for the sign if there is one. -/
def InRange (signed : Bool) (w : Nat) (v : Int) : Prop :=
  if signed then -2 ^ (w - 1) ≤ v ∧ v < 2 ^ (w - 1) else 0 ≤ v ∧ v < 2 ^ w

instance (signed : Bool) (w : Nat) (v : Int) : Decidable (InRange signed w v) :=
  inferInstanceAs (Decidable (if signed then _ ∧ _ else _ ∧ _))

theorem bitLength_le {n k : Nat} : bitLength n ≤ k ↔ n < 2 ^ k := by
  unfold bitLength
  split
  next zero => simp [zero]
  next pos => exact Nat.succ_le_iff.trans (Nat.log2_lt pos)

theorem bitLength_two_pow (k : Nat) : bitLength (2 ^ k) = k + 1 := by
  rw [bitLength,if_neg (by positivity),Nat.log2_two_pow]

theorem bitsNeeded_nonneg (h : 0 ≤ v) : bitsNeeded v ≤ w ↔ v < 2 ^ w := by
  rw [bitsNeeded,if_neg (by omega),bitLength_le]
  zify
  rw [abs_of_nonneg h]

theorem bitsNeeded_neg (h : v < 0) (pos : 0 < w) : bitsNeeded v ≤ w ↔ -2 ^ (w - 1) ≤ v := by
  obtain ⟨n,rfl⟩ : ∃ n : Nat, v = -(n + 1) := ⟨(-v - 1).toNat,by omega⟩
  obtain ⟨k,rfl⟩ : ∃ k, w = k + 1 := ⟨w - 1,by omega⟩
  have abs : (-((n : Int) + 1)).natAbs = n + 1 := by omega
  have below : (-2 ^ (k + 1 - 1) : Int) ≤ -(n + 1) ↔ n + 1 ≤ 2 ^ k := by
    rw [Nat.add_sub_cancel,neg_le_neg_iff]
    norm_cast
  rw [bitsNeeded,if_pos h,abs,below]
  by_cases lowest : ∃ j, n + 1 = 2 ^ j
  · obtain ⟨j,eq⟩ := lowest
    have power : (-((n : Int) + 1)) = -(Nat.pow 2 (j + 1 - 1) : Int) := by
      rw [Nat.add_sub_cancel]
      exact_mod_cast congrArg (fun m : Nat => -(m : Int)) eq
    rw [eq,bitLength_two_pow,if_pos power,Nat.pow_le_pow_iff_right (by decide)]
    omega
  · rw [if_neg,Nat.add_le_add_iff_right,bitLength_le]
    · exact ⟨le_of_lt,fun le => lt_of_le_of_ne le fun eq => lowest ⟨k,eq⟩⟩
    · intro eq
      refine lowest ⟨bitLength (n + 1) - 1,?_⟩
      have := neg_inj.1 eq
      exact_mod_cast this

theorem inRange_iff (pos : 0 < w) : InRange (decide (v < 0)) w v ↔ bitsNeeded v ≤ w := by
  unfold InRange
  by_cases h : v < 0
  · have small : v < 2 ^ (w - 1) := h.trans (by positivity)
    simp [h,small,bitsNeeded_neg h pos]
  · simp [h,bitsNeeded_nonneg (not_lt.1 h),not_lt.1 h]

theorem width_isLeast (v : Int) : IsLeast {w : Nat | 8 ≤ w ∧ 8 ∣ w ∧ InRange (decide (v < 0)) w v} (width v) := by
  unfold width
  refine ⟨⟨by omega,by omega,(inRange_iff (by omega)).2 (by omega)⟩,fun w ⟨least,bytes,fits⟩ => ?_⟩
  rw [inRange_iff (by omega)] at fits
  omega

theorem isAccepted_iff : isAccepted v ↔ -2 ^ 255 ≤ v ∧ v < 2 ^ 256 := by
  have short : isAccepted v ↔ bitsNeeded v ≤ 256 := by
    rw [isAccepted,decide_eq_true_eq,width]
    omega
  rw [short]
  by_cases h : v < 0
  · have small : v < 2 ^ 256 := h.trans (by positivity)
    exact (bitsNeeded_neg h (by decide)).trans (and_iff_left small).symm
  · have big : -2 ^ 255 ≤ v := by omega
    exact (bitsNeeded_nonneg (not_lt.1 h)).trans (and_iff_right big).symm

theorem isAccepted_of_lt {v : Nat} (h : v < 2 ^ 256) : isAccepted v :=
  isAccepted_iff.2 ⟨by omega,by exact_mod_cast h⟩

end Literal

namespace Literal

variable {s : String} {hexadecimal : Bool}

theorem piece_eq (token : Token.lexeme s.toList = (if hexadecimal then .hexadecimal else .decimal,s.length)) :
    ∃ p q, Source.piece s = Elaboration.placedAt p <$> Elaboration.number (Elaboration.infoAt q) hexadecimal s := by
  obtain ⟨-,full⟩ := Token.numberLexeme_of_lexeme token (by cases hexadecimal <;> rfl)
  have cut := Token.cutUp_of_lexeme token full (by cases hexadecimal <;> decide)
  obtain ⟨p,q,last,tokens⟩ := Token.visible_piece cut
  have read : Surface.Source.parse ("SOL " ++ s) = .ok (.expression p (.number q hexadecimal s)) := by
    rw [Surface.Source.parse,tokens]
    cases hexadecimal <;> rfl
  refine ⟨p,q,?_⟩
  rw [Source.piece_of_expression read,Surface.Expr.toNode]

theorem natural?_eq (token : Token.lexeme s.toList = (if hexadecimal then .hexadecimal else .decimal,s.length)) :
    (if hexadecimal then Text.natural? 16 (s.toList.drop 2) else Text.natural? 10 s.toList) =
      if isPlain hexadecimal s.toList then some (denoted hexadecimal s.toList) else none := by
  rw [← String.length_toList] at token
  cases hexadecimal with
  | true => simpa [denoted,isPlain] using Token.natural?_hexadecimal token
  | false =>
    simp only [isPlain,Bool.false_eq_true,if_false,Bool.false_or,all_eq_true,Bool.not_eq_true']
    split
    next plain => rw [Token.natural?_decimal token plain,denoted_plain plain]
    next power =>
      cases eq : Text.natural? 10 s.toList with
      | none => rfl
      | some => exact absurd (Text.isPowerMark_of_natural? eq) power

/-- A number below `2 ^ 256` is built as what it denotes and printed as it was written, unless a power
of ten is written with a mark; then nothing is built. -/
theorem denotes_unless_power (s : String) (hexadecimal : Bool)
    (token : Token.lexeme s.toList = (if hexadecimal then .hexadecimal else .decimal,s.length))
    (small : denoted hexadecimal s.toList < 2 ^ 256) :
    (isPlain hexadecimal s.toList = true → ∃ n, Source.piece s = .ok n ∧
      (∃ i, n = .number i (denoted hexadecimal s.toList) hexadecimal (some s) none) ∧ ∀ style, n.code style = .ok s) ∧
    (isPlain hexadecimal s.toList = false → Source.piece s = .error (.badValue none)) := by
  obtain ⟨p,q,eq⟩ := piece_eq token
  rw [eq,Elaboration.number,natural?_eq token]
  constructor
  · intro plain
    rw [if_pos plain]
    dsimp only
    rw [if_pos (isAccepted_of_lt small)]
    exact ⟨_,rfl,⟨_,rfl⟩,fun _ => rfl⟩
  · intro power
    rw [power]
    rfl

theorem denotes_grouped_and_power :
    (∃ n, Source.piece "1_000" = .ok n ∧ (∃ i, n = .number i 1000 false (some "1_000") none) ∧
      ∀ style, n.code style = .ok "1_000") ∧ denoted false "1e5".toList = 100000 ∧ Source.piece "1e5" = .error (.badValue none) :=
  ⟨(denotes_unless_power "1_000" false (by decide +kernel) (by decide +kernel)).1 (by decide +kernel),
    by decide +kernel,
    (denotes_unless_power "1e5" false (by decide +kernel) (by decide +kernel)).2 (by decide +kernel)⟩

end Literal

/-! ### Types of numbers -/

theorem Elementary.represents_eq {t : Elementary} {w : Nat} (bits : t.bits? = some (w : Int)) (pos : 0 < w) (v : Int) :
    t.represents v = .ok (decide (Literal.InRange t.isSigned w v)) := by
  have one : ¬ (w : Int) < 1 := by omega
  have zero : ¬ (w : Int) < 0 := by omega
  have less : ((w : Int) - 1).toNat = w - 1 := by omega
  rw [represents,bits]
  cases t.isSigned <;> simp [Literal.InRange,one,zero,less]

/-- A literal is accepted if a machine word holds it, signed or not. Its width is the smallest one, in bytes, of a type that
holds it, its type without the value holds it, and it converts to the integer types that hold it and to no others. A type
without a width has 256 bits. -/
theorem literal_types_exact (p : Program) (v : Int) :
    Elementary.ofLiteral v = (if -2 ^ 255 ≤ v ∧ v < 2 ^ 256 then .ok (.numberLiteral v) else .error .violated) ∧
    (∃ w : Nat, (Elementary.numberLiteral v).bits? = some (w : Int) ∧
      IsLeast {w : Nat | 8 ≤ w ∧ 8 ∣ w ∧ Literal.InRange (decide (v < 0)) w v} w) ∧
    (∃ t, (Elementary.numberLiteral v).abstract? = some t ∧ t.represents v = .ok true) ∧
    ∀ (i j : Info) (name : String) (w : Nat),
      p.converts (.elementary i (.numberLiteral v)) (.elementary j (.int name w)) =
        .ok (decide (Literal.InRange true (if w = 0 then 256 else w) v)) ∧
      p.converts (.elementary i (.numberLiteral v)) (.elementary j (.uint name w)) =
        .ok (decide (Literal.InRange false (if w = 0 then 256 else w) v)) := by
  have least := Literal.width_isLeast v
  refine ⟨?_,⟨_,rfl,least⟩,⟨_,rfl,?_⟩,fun i j name w => ?_⟩
  · simp only [Elementary.ofLiteral,Literal.isAccepted_iff]
  · obtain ⟨⟨eight,-,inRange⟩,-⟩ := least
    have wide : Literal.width v ≠ 0 := by omega
    by_cases h : v < 0
    · rw [if_pos h,Elementary.represents_eq (w := Literal.width v) (by simp [Elementary.bits?,wide]) (by omega)]
      exact congrArg Except.ok (decide_eq_true (by simpa [h,Elementary.isSigned] using inRange))
    · rw [if_neg h,Elementary.represents_eq (w := Literal.width v) (by simp [Elementary.bits?,wide]) (by omega)]
      exact congrArg Except.ok (decide_eq_true (by simpa [h,Elementary.isSigned] using inRange))
  · have pos : 0 < if w = 0 then 256 else w := by split <;> omega
    have bits : (if (w : Int) = 0 then 256 else (w : Int)) = ((if w = 0 then 256 else w : Nat) : Int) := by
      split_ifs <;> omega
    have held (t : Elementary) (known : t.bits? = some (if (w : Int) = 0 then 256 else (w : Int))) :=
      Elementary.represents_eq (known.trans (congrArg some bits)) pos v
    constructor
    · rw [Program.converts]
      exact held (.int name w) rfl
    · rw [Program.converts]
      exact held (.uint name w) rfl

/-! ### Quoted texts -/

namespace Quotation

/-- What can stand between quotes `q`: a backslash takes the next character with it. -/
def isInner (q : Char) : List Char → Bool
  | [] => true
  | '\\' :: _ :: rest => isInner q rest
  | c :: rest => c != q && c != '\r' && c != '\n' && c != '\\' && isInner q rest

/-- Whether the quote `q` stands in a text without a backslash that takes it. -/
def hasBare (q : Char) : List Char → Bool
  | [] => false
  | '\\' :: _ :: rest => hasBare q rest
  | c :: rest => c == q || hasBare q rest

/-- The characters of a text, each with whether it is a sign for something else. -/
def units : List Char → List (Bool × Char)
  | [] => []
  | '\\' :: c :: rest => (!(c == '"' || c == '\'' || c == '\\'),c) :: units rest
  | c :: rest => (false,c) :: units rest

/-- What a character behind a backslash stands for. A line end disappears. -/
def sign : Char → List Char
  | '\n' => []
  | 'n' => ['\n']
  | 'r' => ['\r']
  | 't' => ['\t']
  | 'b' => ['\x08']
  | 'f' => ['\x0c']
  | 'v' => ['\x0b']
  | c => [c]

def coded (cs : List Char) : Option Char :=
  if cs.all Token.isHexDigit then some (.ofNat (Literal.value 16 cs)) else none

def meaning : List (Bool × Char) → List Char
  | [] => []
  | (true,'x') :: (false,a) :: (false,b) :: rest =>
    match coded [a,b] with
    | some c => c :: meaning rest
    | none => 'x' :: a :: b :: meaning rest
  | (true,'u') :: (false,a) :: (false,b) :: (false,c) :: (false,d) :: rest =>
    match coded [a,b,c,d] with
    | some e => e :: meaning rest
    | none => 'u' :: a :: b :: c :: d :: meaning rest
  | (true,c) :: rest => sign c ++ meaning rest
  | (false,c) :: rest => c :: meaning rest

/-- The characters that a text between quotes denotes. -/
def resolved (cs : List Char) : List Char :=
  meaning (units cs)

/-- What stands between the quotes. -/
def between (s : String) : List Char :=
  s.toList.tail.dropLast

variable {q : Char} {cs : List Char}

variable {s : String}

theorem quotedRun_eq_some_iff {n : Nat} (plain : q ≠ '\\') : Token.quotedRun q cs = some n ↔
    ∃ inner rest, cs = inner ++ q :: rest ∧ n = inner.length + 1 ∧ isInner q inner := by
  constructor
  · intro run
    fun_induction Token.quotedRun q cs generalizing n with
    | case1 => cases run
    | case2 c rest ih =>
      obtain ⟨m,more,rfl⟩ := Option.map_eq_some_iff.1 run
      obtain ⟨inner,rest,rfl,rfl,fine⟩ := ih more
      exact ⟨'\\' :: c :: inner,rest,rfl,rfl,fine⟩
    | case3 _ rest _ quote =>
      obtain rfl := beq_iff_eq.1 quote
      exact ⟨[],rest,rfl,(Option.some.inj run).symm,rfl⟩
    | case4 => cases run
    | case5 c rest _ quote other ih =>
      obtain ⟨m,more,rfl⟩ := Option.map_eq_some_iff.1 run
      obtain ⟨inner,rest,rfl,rfl,fine⟩ := ih more
      refine ⟨c :: inner,rest,rfl,rfl,?_⟩
      simp only [Bool.or_eq_true,beq_iff_eq,not_or] at other quote
      rw [isInner.eq_3 _ _ _ (by simp [other])]
      simp [other,quote,fine]
  · rintro ⟨inner,rest,rfl,rfl,fine⟩
    fun_induction isInner q inner with
    | case1 => rw [nil_append,Token.quotedRun.eq_3 _ _ _ (by simp [plain])]; simp
    | case2 _ _ ih => simp [Token.quotedRun,ih fine]
    | case3 _ _ _ ih =>
      simp only [Bool.and_eq_true,bne_iff_ne] at fine
      rw [cons_append,Token.quotedRun.eq_3 _ _ _ (by simp [fine])]
      simp [fine,ih fine.2]

theorem quotedRun_eq_length_iff (plain : q ≠ '\\') :
    Token.quotedRun q cs = some cs.length ↔ ∃ inner, cs = inner ++ [q] ∧ isInner q inner := by
  rw [quotedRun_eq_some_iff plain]
  constructor
  · rintro ⟨inner,rest,rfl,length,fine⟩
    obtain rfl : rest = [] := by simpa using length
    exact ⟨inner,rfl,fine⟩
  · rintro ⟨inner,rfl,fine⟩
    exact ⟨inner,[],rfl,by simp,fine⟩

theorem lexeme_iff (quote : q = '"' ∨ q = '\'') : Token.lexeme (q :: cs) = (.text,cs.length + 1) ↔
    (∃ inner, cs = inner ++ [q] ∧ isInner q inner) ∧ q :: cs ≠ "\"evmasm\"".toList := by
  have eq : Token.lexeme (q :: cs) = Token.quotedLexeme q cs := by
    obtain rfl | rfl := quote <;> rfl
  rw [eq,Token.quotedLexeme,← quotedRun_eq_length_iff (by obtain rfl | rfl := quote <;> decide)]
  cases run : Token.quotedRun q cs with
  | none => simp
  | some n =>
    dsimp only
    split
    next word =>
      constructor
      · intro h
        cases (Prod.mk.inj h).1
      · rintro ⟨whole,other⟩
        obtain rfl := Option.some.inj whole
        exact absurd (by simpa using word) other
    next other =>
      constructor
      · intro h
        obtain rfl : n = cs.length := by simpa using h
        exact ⟨rfl,by simpa using other⟩
      · rintro ⟨whole,-⟩
        obtain rfl := Option.some.inj whole
        rfl

theorem isInner_unescaped (fine : isInner '"' cs) :
    isInner '\'' (Text.replaceFrom ['\\','"'] ['"'] 0 cs) = !hasBare '\'' cs ∧
      units (Text.replaceFrom ['\\','"'] ['"'] 0 cs) = units cs := by
  fun_induction isInner '"' cs with
  | case1 => exact ⟨rfl,rfl⟩
  | case2 c rest ih =>
    obtain ⟨inner,same⟩ := ih fine
    by_cases double : c = '"'
    · subst double
      simp [Text.replaceFrom,isInner,hasBare,units,inner,same]
    · have skip : Text.replaceFrom ['\\','"'] ['"'] 0 ('\\' :: c :: rest) =
          '\\' :: c :: Text.replaceFrom ['\\','"'] ['"'] 0 rest := by
        -- The character behind the backslash does not open an escape of its own.
        have closed : ¬ ['\\','"'] <+: c :: rest := by
          rintro ⟨more,eq⟩
          obtain ⟨rfl,rfl⟩ := List.cons.inj eq
          simp [isInner] at fine
        simp [Text.replaceFrom,Ne.symm double, isPrefixOf_iff_prefix,closed]
      simp [skip,isInner,hasBare,units,inner,same]
  | case3 c rest _ ih =>
    simp only [Bool.and_eq_true,bne_iff_ne] at fine
    obtain ⟨⟨⟨-,feed⟩,line⟩,back⟩ := fine.1
    obtain ⟨inner,same⟩ := ih fine.2
    have skip : Text.replaceFrom ['\\','"'] ['"'] 0 (c :: rest) = c :: Text.replaceFrom ['\\','"'] ['"'] 0 rest := by
      simp [Text.replaceFrom,Ne.symm back]
    rw [skip,isInner.eq_3 _ _ _ (by simp [back]),hasBare.eq_3 _ _ _ (by simp [back]),units.eq_3 _ _ (by simp [back]),
      units.eq_3 _ _ (by simp [back]),inner,same]
    simp [bne,beq_false_of_ne feed,beq_false_of_ne line,beq_false_of_ne back]

theorem hasBare_of_isInner (fine : isInner q cs) : hasBare q cs = false := by
  fun_induction isInner q cs with
  | case1 => rfl
  | case2 _ _ ih => exact ih fine
  | case3 _ _ _ ih =>
    simp only [Bool.and_eq_true,bne_iff_ne] at fine
    rw [hasBare.eq_3 _ _ _ (by simp [fine]),ih fine.2]
    simpa using fine.1.1.1.1

theorem quote_of_lexeme {c : Char} (text : (Token.lexeme (c :: cs)).1 = .text) : c = '"' ∨ c = '\'' := by
  obtain ⟨-,-,kind⟩ | ⟨-,-,-,kind⟩ | ⟨quote,-⟩ | ⟨-,kind⟩ := Token.lexeme_cases c cs
  on_goal 3 => exact quote
  all_goals simp [text] at kind

theorem exists_quotes (token : Token.lexeme s.toList = (.text,s.length)) :
    ∃ q inner, s.toList = q :: inner ++ [q] ∧ (q = '"' ∨ q = '\'') ∧ isInner q inner := by
  rw [← String.length_toList] at token
  cases eq : s.toList with
  | nil =>
    rw [eq] at token
    cases token
  | cons c =>
    rw [eq] at token
    have quote := quote_of_lexeme (congrArg Prod.fst token)
    obtain ⟨⟨inner,rfl,fine⟩,-⟩ := (lexeme_iff quote).1 token
    exact ⟨c,inner,rfl,quote,fine⟩

theorem unquoted_eq {inner : List Char} (eq : s.toList = q :: inner ++ [q]) :
    (Elaboration.unquoted s).toList = if q = '"' then Text.replaceFrom ['\\','"'] ['"'] 0 inner else inner := by
  have chars : (Text.dropLast 1 (Text.dropFirst 1 s)).toList = inner := by
    simp [Text.dropLast,Text.dropFirst,eq,← String.length_toList]
  have starts : Text.startsWith "\"" s = decide (q = '"') := by
    rw [Bool.eq_iff_iff]
    simp [Text.startsWith,eq,List.isPrefixOf,@eq_comm _ q]
  unfold Elaboration.unquoted
  dsimp only
  rw [starts]
  split <;> simp_all [Text.replace]

theorem piece_eq (token : Token.lexeme s.toList = (.text,s.length)) :
    ∃ i, Source.piece s = .ok (.text i (Elaboration.unquoted s)) := by
  have full : s.toList ≠ [] := by
    intro void
    rw [void] at token
    cases token
  obtain ⟨p,q,last,tokens⟩ := Token.visible_piece (Token.cutUp_of_lexeme token full (by decide))
  have read : Surface.Source.parse ("SOL " ++ s) = .ok (.expression p (.quoted q s)) := by
    rw [Surface.Source.parse,tokens]
    rfl
  rw [Source.piece_of_expression read,Surface.Expr.toNode]
  exact ⟨_,rfl⟩

/-- A quoted text is always built and printed. What is printed is one quoted text again, with the same
characters, if and only if no single quote stands in the text without a backslash. -/
theorem survives_iff (s : String) (token : Token.lexeme s.toList = (.text,s.length)) :
    ∃ n t, Source.piece s = .ok n ∧ (∀ style, n.code style = .ok t) ∧
      ((Token.lexeme t.toList = (.text,t.length) ∧
        ∃ i v, Source.piece t = .ok (.text i v) ∧ resolved v.toList = resolved (between s)) ↔
      hasBare '\'' (between s) = false) := by
  obtain ⟨q,inner,eq,quote,fine⟩ := exists_quotes token
  obtain ⟨i,built⟩ := piece_eq token
  have chars : between s = inner := by simp [between,eq]
  refine ⟨_,"'" ++ Elaboration.unquoted s ++ "'",built,fun _ => rfl,?_⟩
  have printed : ("'" ++ Elaboration.unquoted s ++ "'").toList = '\'' :: ((Elaboration.unquoted s).toList ++ ['\'']) := by simp
  have again := unquoted_eq printed
  have lexed : Token.lexeme ("'" ++ Elaboration.unquoted s ++ "'").toList = (.text,("'" ++ Elaboration.unquoted s ++ "'").length) ↔
      isInner '\'' (Elaboration.unquoted s).toList = true := by
    rw [← String.length_toList,printed,length_cons,lexeme_iff (.inr rfl)]
    simp
  -- What is printed is the text itself between single quotes, and double quotes have lost their backslash.
  have value : isInner '\'' (Elaboration.unquoted s).toList = (!hasBare '\'' inner) ∧ units (Elaboration.unquoted s).toList = units inner := by
    rw [unquoted_eq eq]
    obtain rfl | rfl := quote
    · exact isInner_unescaped fine
    · simp [fine,hasBare_of_isInner fine]
  rw [lexed,value.1,chars]
  constructor
  · rintro ⟨one,-⟩
    simpa using one
  · intro void
    rw [void] at value ⊢
    obtain ⟨j,rebuilt⟩ := piece_eq (lexed.2 value.1)
    refine ⟨rfl,j,_,rebuilt,?_⟩
    rw [again,resolved,resolved,if_neg (by decide),value.2]

theorem survives_escaped_not_bare :
    (∃ n t, Source.piece "\"a\\\"b\"" = .ok n ∧ (∀ style, n.code style = .ok t) ∧ Token.lexeme t.toList = (.text,t.length) ∧
      ∃ i v, Source.piece t = .ok (.text i v) ∧ resolved v.toList = "a\"b".toList) ∧
    ∃ n t, Source.piece "\"it's\"" = .ok n ∧ (∀ style, n.code style = .ok t) ∧ ¬ (Token.lexeme t.toList = (.text,t.length) ∧
      ∃ i v, Source.piece t = .ok (.text i v) ∧ resolved v.toList = "it's".toList) := by
  obtain ⟨n,t,built,printed,iff⟩ := survives_iff "\"a\\\"b\"" (by decide +kernel)
  obtain ⟨m,u,built',printed',iff'⟩ := survives_iff "\"it's\"" (by decide +kernel)
  exact ⟨⟨n,t,built,printed,iff.2 (by decide +kernel)⟩,m,u,built',printed',fun h => absurd (iff'.1 h) (by decide +kernel)⟩

end Quotation

end Confidential
