import Confidential.Proofs.Spelling

/-!
Numbers in a source: where a number ends, and which texts of numbers are read as integers.
-/

namespace Confidential

open List

namespace Token

variable {cs u w : List Char}

section Runs

variable {d : Char → Bool}

theorem mem_groupedRun (digits : ∀ c, d c → isNamePart c) (cs : List Char) :
    ∀ c ∈ cs.take (groupedRun d cs), isNamePart c := by
  have under : isNamePart '_' := by decide
  fun_induction groupedRun d cs <;> simp_all

theorem mem_digitsRun (digits : ∀ c, d c → isNamePart c) (cs : List Char) :
    ∀ c ∈ cs.take (digitsRun d cs), isNamePart c := by
  cases cs with
  | nil => simp
  | cons c cs =>
    rw [digitsRun]
    split
    next digit => simpa [digits c digit] using mem_groupedRun digits cs
    next => simp

theorem digitsRun_le (u : List Char) : digitsRun d u ≤ u.length := by
  have grouped (u : List Char) : groupedRun d u ≤ u.length := by
    fun_induction groupedRun d u <;> simp_all
  cases u with
  | nil => simp [digitsRun]
  | cons _ u =>
    have := grouped u
    rw [digitsRun]
    split <;> simp
    omega

theorem groupedRun_of_le (under : d '_' = false) (h : groupedRun d (u ++ w) ≤ u.length) : groupedRun d (u ++ w) = groupedRun d u := by
  fun_induction groupedRun d u with
  | case1 => simpa using h
  | case2 _ _ digit ih =>
    simp only [cons_append,groupedRun,digit,if_true,length_cons] at h ⊢
    rw [ih (by omega)]
  | case3 _ _ digit => simp [groupedRun,digit]
  | case4 c _ _ digit ih =>
    have plain : c ≠ '_' := by
      rintro rfl
      simp [under] at digit
    rw [cons_append,groupedRun.eq_3 _ _ _ (by simp [plain]),if_pos digit] at h ⊢
    rw [ih (by simpa using h)]
  | case5 c rest other digit =>
    by_cases plain : c = '_'
    · subst plain
      obtain rfl : rest = [] := by
        cases rest with
        | nil => rfl
        | cons e rest => exact (other e rest rfl rfl).elim
      cases w with
      | nil => rw [append_nil,groupedRun.eq_3 _ _ _ (by simp),if_neg digit]
      | cons =>
        simp only [cons_append,nil_append,groupedRun] at h ⊢
        split_ifs at h ⊢ <;> simp_all
    · rw [cons_append,groupedRun.eq_3 _ _ _ (by simp [plain]),if_neg digit]

theorem digitsRun_of_le (under : d '_' = false) (h : digitsRun d (u ++ w) ≤ u.length) : digitsRun d (u ++ w) = digitsRun d u := by
  cases u with
  | nil => simpa [digitsRun] using h
  | cons =>
    simp only [cons_append,digitsRun,length_cons] at h ⊢
    split_ifs at h ⊢
    · rw [groupedRun_of_le under (Nat.le_of_succ_le_succ h)]
    · rfl

end Runs

variable {c : Char}

theorem decimalRun_of_le (h : decimalRun (u ++ w) ≤ u.length) : decimalRun (u ++ w) = decimalRun u := by
  have digits : digitsRun Char.isDigit (u ++ w) = digitsRun Char.isDigit u := by
    refine digitsRun_of_le (by decide) (Nat.le_trans ?_ h)
    unfold decimalRun
    dsimp only
    split
    · split_ifs <;> omega
    · rfl
  unfold decimalRun at h ⊢
  dsimp only at h ⊢
  have short := digitsRun_le (d := Char.isDigit) u
  rw [digits,drop_append_of_le_length short] at h ⊢
  have length := length_drop (l := u) (i := digitsRun Char.isDigit u)
  cases rest : u.drop (digitsRun Char.isDigit u) with
  | nil =>
    rw [rest] at h length
    rw [length_nil] at length
    dsimp only [nil_append] at h ⊢
    split at h <;> grind
  | cons _ v =>
    rw [rest] at h length
    simp only [cons_append] at h ⊢
    have more : digitsRun Char.isDigit (v ++ w) ≤ v.length → digitsRun Char.isDigit (v ++ w) = digitsRun Char.isDigit v :=
      digitsRun_of_le (by decide)
    rw [length_cons] at length
    split_ifs at h ⊢ <;> simp_all <;> omega

theorem hexRun_of_le (h : hexRun (u ++ w) ≤ u.length) : hexRun (u ++ w) = hexRun u := by
  match u with
  | [] => simpa [hexRun] using h
  | [c] =>
    rw [singleton_append,hexRun.eq_2 [c] (by simp)] at *
    unfold hexRun at h ⊢
    grind
  | c :: x :: v =>
    have more : digitsRun isHexDigit (v ++ w) ≤ v.length → digitsRun isHexDigit (v ++ w) = digitsRun isHexDigit v :=
      digitsRun_of_le (by decide)
    by_cases zero : c = '0'
    · subst zero
      simp only [cons_append,hexRun,length_cons] at h ⊢
      split_ifs at h ⊢ <;> simp_all
    · rw [cons_append,hexRun.eq_2 _ (by simp [zero]),hexRun.eq_2 _ (by simp [zero])]

theorem span_append (p : Char → Bool) (u w : List Char) :
    (u.takeWhile p = u ∧ u.dropWhile p = [] ∧ (u ++ w).takeWhile p = u ++ w.takeWhile p) ∨
    ∃ c v, u.length = (u.takeWhile p).length + (v.length + 1) ∧ u.dropWhile p = c :: v ∧
      (u ++ w).dropWhile p = c :: (v ++ w) ∧ (u ++ w).takeWhile p = u.takeWhile p := by
  induction u with
  | nil => simp
  | cons c =>
    by_cases test : p c
    · simp only [cons_append,dropWhile_cons_of_pos test,takeWhile_cons_of_pos test,length_cons,List.cons.injEq,true_and]
      grind
    · simp [test]

theorem versionRun_of_le (h : versionRun (u ++ w) ≤ u.length) : versionRun (u ++ w) = versionRun u := by
  -- Parts that reach the end of `u` would make the run longer than `u`.
  unfold versionRun at h ⊢
  dsimp only at h ⊢
  obtain ⟨-,void,run⟩ | ⟨c,v,length,rest,rest',run⟩ := span_append Char.isDigit u w
  · rw [void]
    rw [run] at h ⊢
    grind
  rw [rest',run] at h
  rw [rest,rest',run]
  by_cases dot : c = '.'
  swap
  · simp [dot]
  subst dot
  simp only at h ⊢
  obtain ⟨-,void,run⟩ | ⟨c,x,length',rest,rest',run⟩ := span_append Char.isDigit v w
  · rw [void]
    rw [run] at h ⊢
    grind
  rw [rest',run] at h
  rw [rest,rest',run]
  by_cases dot : c = '.'
  swap
  · simp [dot]
  subst dot
  simp only at h ⊢
  obtain ⟨all,-,run⟩ | ⟨-,-,-,-,-,run⟩ := span_append Char.isDigit x w
  · rw [run] at h ⊢
    rw [all]
    simp only [Bool.or_eq_true,isEmpty_iff_length_eq_zero,length_append] at h ⊢
    split_ifs at h ⊢ <;> omega
  · rw [run]

theorem isNamePart_of_isDigit (h : c.isDigit) : isNamePart c := by
  simp [isNamePart,Char.isAlphanum,h]

theorem isNamePart_of_isHexDigit (h : isHexDigit c) : isNamePart c := by
  simp only [isHexDigit,isNamePart,Char.isAlphanum,Char.isAlpha,Char.isUpper,Char.isLower,Char.isDigit,Char.le_def] at h ⊢
  grind

theorem mem_decimalRun (cs : List Char) : ∀ c ∈ cs.take (decimalRun cs), isNamePart c := by
  have digits (cs : List Char) := mem_digitsRun (fun _ => isNamePart_of_isDigit) cs
  have first := digits cs
  unfold decimalRun
  dsimp only
  split
  next e rest eq =>
    split_ifs with mark
    · have sign : isNamePart e := by
        simp only [Bool.and_eq_true,Bool.or_eq_true,beq_iff_eq] at mark
        obtain rfl | rfl := mark.1 <;> decide
      rw [Nat.add_assoc,take_add,eq,Nat.add_comm,take_succ_cons]
      simpa [or_imp,forall_and,sign] using ⟨first,digits rest⟩
    · exact first
  next => exact first

theorem mem_hexRun (cs : List Char) : ∀ c ∈ cs.take (hexRun cs), isNamePart c := by
  unfold hexRun
  split
  next x rest =>
    dsimp only
    split_ifs with mark
    · have sign : isNamePart x := by
        simp only [Bool.and_eq_true,Bool.or_eq_true,beq_iff_eq] at mark
        obtain rfl | rfl := mark.1 <;> decide
      have zero : isNamePart '0' := by decide
      simpa [sign,zero] using mem_digitsRun (fun _ => isNamePart_of_isHexDigit) rest
    · simp
  next => simp

theorem mem_versionRun (cs : List Char) : ∀ c ∈ cs.take (versionRun cs), isNamePart c ∨ c = '.' := by
  have digits (cs : List Char) : ∀ c ∈ cs.takeWhile Char.isDigit, isNamePart c ∨ c = '.' :=
    fun c hc => .inl (isNamePart_of_isDigit (mem_takeWhile_imp hc))
  have whole (cs : List Char) := takeWhile_append_dropWhile (p := Char.isDigit) (l := cs)
  unfold versionRun
  dsimp only
  split
  next rest eq =>
    split
    next rest' eq' =>
      split_ifs
      · simp
      · have start : cs.takeWhile Char.isDigit ++ '.' :: (rest.takeWhile Char.isDigit ++ '.' :: rest'.takeWhile Char.isDigit)
            <+: cs := ⟨rest'.dropWhile Char.isDigit,by simp [whole,← eq',← eq]⟩
        have take := prefix_iff_eq_take.1 start
        simp only [length_append,length_cons,← Nat.add_assoc] at take
        rw [← take]
        simpa [or_imp,forall_and] using ⟨digits cs,digits rest,digits rest'⟩
    next => simp
  next => simp

def EndsNumber (cs : List Char) : Prop :=
  ∀ c ∈ cs.head?, isNamePart c = false ∧ c ≠ '.'

theorem run_append {f : List Char → Nat} (parts : ∀ (cs : List Char), ∀ c ∈ cs.take (f cs), isNamePart c ∨ c = '.')
    (of_le : f (u ++ cs) ≤ u.length → f (u ++ cs) = f u) (h : EndsNumber cs) : f (u ++ cs) = f u := by
  cases cs with
  | nil => rw [append_nil]
  | cons c cs =>
    refine of_le (Nat.le_of_not_lt fun more => ?_)
    obtain ⟨k,eq⟩ := Nat.exists_eq_add_of_lt more
    have inside := parts (u ++ c :: cs) c (by rw [eq,Nat.add_assoc,take_append]; simp)
    obtain ⟨part,dot⟩ := h c rfl
    simp [part,dot] at inside

theorem numberLexeme_append (h : EndsNumber cs) : numberLexeme (u ++ cs) = numberLexeme u := by
  rw [numberLexeme,numberLexeme,run_append mem_versionRun versionRun_of_le h,
    run_append (fun cs c hc => .inl (mem_decimalRun cs c hc)) decimalRun_of_le h,
    run_append (fun cs c hc => .inl (mem_hexRun cs c hc)) hexRun_of_le h]

def Kind.isNumber : Kind → Bool
  | .decimal | .hexadecimal => true
  | _ => false

theorem isDigit_of_lexeme (number : (lexeme (c :: u)).1.isNumber) :
    isNameStart c = false ∧ c.isDigit := by
  obtain ⟨-,-,kind⟩ | ⟨start,digit,-⟩ | ⟨-,-,kind⟩ | ⟨-,kind⟩ := lexeme_cases c u
  on_goal 2 => exact ⟨start,digit⟩
  all_goals cases eq : (lexeme (c :: u)).1 <;> simp_all [Kind.isNumber]

theorem marked_of_lexeme (h : (lexeme cs).1 = .hexadecimal) :
    ∃ x rest, cs = '0' :: x :: rest ∧ (x = 'x' ∨ x = 'X') := by
  cases cs with
  | nil => cases h
  | cons c u =>
    have start := isDigit_of_lexeme (c := c) (u := u) (by rw [h]; rfl)
    rw [lexeme] at h
    simp only [start.1,start.2,Bool.false_eq_true,if_false,if_true,numberLexeme] at h
    have run : hexRun (c :: u) ≠ 0 := by
      intro zero
      split_ifs at h with version decimal
      simp [zero] at decimal
    unfold hexRun at run
    split at run
    next x rest eq =>
      dsimp only at run
      split_ifs at run with mark
      · simp only [Bool.and_eq_true,Bool.or_eq_true,beq_iff_eq] at mark
        exact ⟨x,rest,eq,mark.1⟩
      · exact absurd rfl run
    next => exact absurd rfl run

theorem clear_number {t : Token} (number : t.kind.isNumber)
    (token : lexeme t.text.toList = (t.kind,t.text.length)) (h : EndsNumber cs) : Clear t cs := by
  have kind : (lexeme t.text.toList).1.isNumber := by rwa [token]
  rw [Clear,← token]
  cases eq : t.text.toList with
  | nil =>
    rw [eq] at kind
    cases kind
  | cons =>
    rw [eq] at kind
    have start := isDigit_of_lexeme kind
    rw [cons_append,lexeme,lexeme]
    simp only [start.1,start.2,Bool.false_eq_true,if_false,if_true]
    rw [← cons_append,numberLexeme_append h]

end Token

namespace Text

variable {base v : Nat} {cs : List Char} {c : Char} {s : String}

theorem isSome_of_digitsValue? {r : Nat} (h : digitsValue? base v cs = some r) :
    ∀ c ∈ cs, c = '_' ∨ (digitValue? c).isSome := by
  fun_induction digitsValue? base v cs with
  | case1 => simp
  | case2 | case5 => simp_all
  | _ => cases h

theorem isNamePart_of_digit (h : c = '_' ∨ (digitValue? c).isSome) : Token.isNamePart c := by
  obtain rfl | h := h
  · decide
  · unfold digitValue? at h
    simp only [Bool.and_eq_true,decide_eq_true_eq,Char.le_def,UInt32.le_iff_toNat_le] at h
    simp only [Token.isNamePart,Char.isAlphanum,Char.isAlpha,Char.isUpper,Char.isLower,Char.isDigit,Bool.or_eq_true,
      Bool.and_eq_true,decide_eq_true_eq,beq_iff_eq,ge_iff_le,UInt32.le_iff_toNat_le]
    split_ifs at h with digit lower upper
    · exact .inl (.inl (.inr digit))
    · exact .inl (.inl (.inl (.inr ⟨lower.1,lower.2.trans (by decide)⟩)))
    · exact .inl (.inl (.inl (.inl ⟨upper.1,upper.2.trans (by decide)⟩)))
    · cases h

theorem isBlank_of_isNamePart (h : Token.isNamePart c) : isBlank c = false := by
  have range : 36 ≤ c.toNat ∧ c.toNat ≤ 122 := by
    simp only [Token.isNamePart,Char.isAlphanum,Char.isAlpha,Char.isUpper,Char.isLower,Char.isDigit,Bool.or_eq_true,
      Bool.and_eq_true,decide_eq_true_eq,beq_iff_eq,ge_iff_le,UInt32.le_iff_toNat_le] at h
    obtain (((⟨l,u⟩ | ⟨l,u⟩) | ⟨l,u⟩) | rfl) | rfl := h
    · exact ⟨Nat.le_trans (by decide) l,u.trans (by decide)⟩
    · exact ⟨Nat.le_trans (by decide) l,u.trans (by decide)⟩
    · exact ⟨Nat.le_trans (by decide) l,u.trans (by decide)⟩
    · decide
    · decide
  unfold isBlank
  simp only [Bool.or_eq_false_iff,Bool.and_eq_false_iff,decide_eq_false_iff_not,beq_eq_false_iff_ne]
  omega

theorem isBlank_of_digit (h : c = '_' ∨ (digitValue? c).isSome) : isBlank c = false :=
  isBlank_of_isNamePart (isNamePart_of_digit h)

theorem trim_eq_self (h : ∀ c ∈ s.toList, isBlank c = false) : trim s = s := by
  have drop {cs : List Char} (h : ∀ c ∈ cs, isBlank c = false) : dropBlanks cs = cs := by
    cases cs with
    | nil => rfl
    | cons c => exact dropWhile_cons_of_neg (by simp [h c])
  rw [trim,drop h,dropEndBlanks,drop (fun c hc => h c (mem_reverse.1 hc)),reverse_reverse,String.ofList_toList]

theorem isSome_of_natural? (h : natural? base cs = some v) :
    ∀ c ∈ cs, c = '_' ∨ (digitValue? c).isSome := by
  unfold natural? at h
  split at h
  · cases h
  · cases h
  · exact isSome_of_digitsValue? h

theorem range_of_isNameStart (h : Token.isNameStart c) : 65 ≤ c.toNat ∨ c.toNat = 36 := by
  simp only [Token.isNameStart,Char.isAlpha,Char.isUpper,Char.isLower,Bool.or_eq_true,
    Bool.and_eq_true,decide_eq_true_eq,beq_iff_eq,ge_iff_le,UInt32.le_iff_toNat_le] at h
  obtain ((⟨l,-⟩ | ⟨l,-⟩) | rfl) | rfl := h
  · exact .inl l
  · exact .inl (Nat.le_trans (by decide) l)
  · decide
  · decide

theorem isDigit_of_isNameStart (h : Token.isNameStart c) : c.isDigit = false := by
  have range := range_of_isNameStart h
  rw [Bool.eq_false_iff]
  intro digit
  simp only [Char.isDigit,Bool.and_eq_true,decide_eq_true_eq,ge_iff_le,UInt32.le_iff_toNat_le] at digit
  have low : 48 ≤ c.toNat := digit.1
  have high : c.toNat ≤ 57 := digit.2
  omega

theorem natural?_of_isNameStart (h : Token.isNameStart c) (cs : List Char) : natural? 10 (c :: cs) = none := by
  have digit : ∀ d, digitValue? c = some d → ¬ d < 10 := by
    intro d hd
    have range := range_of_isNameStart h
    unfold digitValue? at hd
    simp only [Bool.and_eq_true,decide_eq_true_eq,Char.le_def,UInt32.le_iff_toNat_le] at hd
    split_ifs at hd with decimal lower upper
    · have low : 48 ≤ c.toNat := decimal.1
      have high : c.toNat ≤ 57 := decimal.2
      omega
    · have low : 97 ≤ c.toNat := lower.1
      have := Option.some.inj hd
      omega
    · have low : 65 ≤ c.toNat := upper.1
      have := Option.some.inj hd
      omega
  unfold natural?
  split
  · rfl
  · rfl
  · next other =>
    rw [digitsValue?]
    · cases value : digitValue? c with
      | none => rfl
      | some d => exact if_neg (digit d value)
    · rintro c rest rfl -
      exact other _ rfl

theorem integer?_of_natural? (h : natural? 10 s.toList = some v) : integer? s = some (v : Int) := by
  have chars := isSome_of_natural? h
  unfold integer?
  rw [trim_eq_self fun c hc => isBlank_of_digit (chars c hc)]
  split
  next cs eq => simpa [digitValue?] using chars '-' (by simp [eq])
  next cs eq => simpa [digitValue?] using chars '+' (by simp [eq])
  next => rw [h]; rfl

end Text

end Confidential
