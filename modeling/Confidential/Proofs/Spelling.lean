import Confidential.Proofs.Readings

/-!
How the lexer cuts a text that is put together from the texts of tokens: into these tokens, if no
token can go on with what follows it.
-/

namespace Confidential.Token

open List

def cutUp (cs : List Char) : List Token :=
  (visible (scan .first 0 cs)).map still

theorem cutUp_scan (p : Pos) (k : Nat) (cs : List Char) : (visible (scan p k cs)).map still = cutUp (cs.drop k) := by
  suffices h : ∀ q, (visible (scan p k cs)).map still = (visible (scan q 0 (cs.drop k))).map still from h _
  induction cs generalizing p k with
  | nil => intro q; simp [scan,visible,isHidden,still]
  | cons c rest ih =>
    intro q
    cases k with
    | succ => simpa [scan] using ih _ _ q
    | zero =>
      have more := (ih (p.after c) ((lexeme (c :: rest)).2 - 1) q).trans
        (ih (q.after c) ((lexeme (c :: rest)).2 - 1) q).symm
      simp only [visible,isHidden] at more ⊢
      simp only [scan,drop_zero,filter_cons]
      split <;> simp [more,still]

theorem cutUp_nil : cutUp [] = [ofKind .finish ""] := rfl

def Clear (t : Token) (cs : List Char) : Prop :=
  lexeme (t.text.toList ++ cs) = (t.kind,t.text.length)

structure IsWritten (t : Token) : Prop where
  full : t.text.toList ≠ []
  seen : t.kind ≠ .hidden

variable {cs u : List Char} {text : String} {t : Token}

variable {c : Char} {k : Kind} {n : Nat}

theorem cutUp_append (clear : Clear t cs) (written : t.IsWritten) :
    cutUp (t.text.toList ++ cs) = t.still :: cutUp cs := by
  obtain ⟨c,v,eq⟩ := exists_cons_of_ne_nil written.full
  have length : t.text.length = v.length + 1 := by rw [← String.length_toList,eq,length_cons]
  have rest := cutUp_scan (Pos.first.after c) v.length (v ++ cs)
  rw [drop_left] at rest
  have all : String.ofList (c :: v) = t.text := by rw [← eq,String.ofList_toList]
  rw [Clear,eq] at clear
  rw [eq,← rest]
  simp only [cutUp,cons_append,scan] at clear ⊢
  rw [clear]
  simp [visible,isHidden,written.seen,still,length,all]

theorem cutUp_hidden (h : lexeme (u ++ cs) = (.hidden,u.length)) (hu : u ≠ []) : cutUp (u ++ cs) = cutUp cs := by
  obtain ⟨c,v,rfl⟩ := exists_cons_of_ne_nil hu
  have rest := cutUp_scan (Pos.first.after c) v.length (v ++ cs)
  rw [drop_left] at rest
  simp only [cutUp,cons_append,scan] at h rest ⊢
  rw [h,← rest]
  simp [visible,isHidden]

theorem cutUp_space (h : isSpace c) (cs : List Char) :
    cutUp (c :: cs) = cutUp (cs.dropWhile isSpace) := by
  have parts : c :: cs = (c :: cs.takeWhile isSpace) ++ cs.dropWhile isSpace := by simp
  rw [parts]
  refine cutUp_hidden ?_ (by simp)
  rw [← parts]
  simp only [isSpace,Bool.or_eq_true,beq_iff_eq] at h
  obtain (((rfl | rfl) | rfl) | rfl) | rfl := h <;> rfl

theorem cutUp_spaces (h : u.all isSpace) (cs : List Char) : cutUp (u ++ cs) = cutUp cs := by
  have drop (cs : List Char) : cutUp (cs.dropWhile isSpace) = cutUp cs := by
    cases cs with
    | nil => rfl
    | cons c =>
      by_cases space : isSpace c
      · rw [dropWhile_cons_of_pos space,cutUp_space space]
      · rw [dropWhile_cons_of_neg space]
  induction u with
  | nil => rfl
  | cons _ _ ih =>
    simp only [all_cons,Bool.and_eq_true] at h
    rw [cons_append,cutUp_space h.1,drop,ih h.2]

/-! ### Kinds of tokens -/

theorem kind_wordLexeme (cs : List Char) :
    (wordLexeme cs).1 ∈ [.hexText,.fixed,.truth,.sizedType,.reserved,.name] := by
  simp only [wordLexeme,wordKind]
  split
  · simp
  · split_ifs <;> simp

theorem kind_numberLexeme (cs : List Char) : (numberLexeme cs).1 ∈ [.version,.decimal,.hexadecimal] := by
  simp only [numberLexeme]
  split_ifs <;> simp

theorem kind_quotedLexeme (q : Char) (cs : List Char) : (quotedLexeme q cs).1 ∈ [.invalid,.fixed,.text] := by
  unfold quotedLexeme
  split
  · simp
  · split <;> simp

theorem kind_slashLexeme (cs : List Char) : (slashLexeme cs).1 ∈ [.hidden,.fixed,.invalid] := by
  have sign (cs : List Char) : (signLexeme cs).1 ∈ [.hidden,.fixed,.invalid] := by
    unfold signLexeme
    split <;> simp
  unfold slashLexeme
  split
  · simp
  · split
    · simp
    · exact sign _
  · exact sign _

/-- The first character of a token tells what it can be. -/
theorem lexeme_cases (c : Char) (cs : List Char) : (isNameStart c ∧ lexeme (c :: cs) = wordLexeme (c :: cs) ∧
      (lexeme (c :: cs)).1 ∈ [.hexText,.fixed,.truth,.sizedType,.reserved,.name]) ∨
    (isNameStart c = false ∧ c.isDigit ∧ lexeme (c :: cs) = numberLexeme (c :: cs) ∧
      (lexeme (c :: cs)).1 ∈ [.version,.decimal,.hexadecimal]) ∨
    ((c = '"' ∨ c = '\'') ∧ lexeme (c :: cs) = quotedLexeme c cs ∧ (lexeme (c :: cs)).1 ∈ [.invalid,.fixed,.text]) ∨
    ((lexeme (c :: cs) = slashLexeme (c :: cs) ∨ (lexeme (c :: cs)).1 = .hidden) ∧
      (lexeme (c :: cs)).1 ∈ [.hidden,.fixed,.invalid]) := by
  have word := kind_wordLexeme (c :: cs)
  have number := kind_numberLexeme (c :: cs)
  have quoted := kind_quotedLexeme c cs
  have slash := kind_slashLexeme (c :: cs)
  rw [lexeme]
  split_ifs <;> simp_all

/-! ### Words -/

structure IsWord (t : Token) : Prop where
  starts : ∃ c cs, t.text.toList = c :: cs ∧ isNameStart c = true
  parts : t.text.toList.all isNamePart = true
  kind : wordKind t.text = t.kind

structure EndsWord (cs : List Char) : Prop where
  part : ∀ c ∈ cs.head?, isNamePart c = false
  quote : ∀ c ∈ cs.head?, c ≠ '"' ∧ c ≠ '\''

theorem takeWhile_word (parts : u.all isNamePart) (ends : EndsWord cs) :
    (u ++ cs).takeWhile isNamePart = u := by
  rw [takeWhile_append_of_pos (by simpa using parts)]
  cases cs with
  | nil => simp
  | cons c => simp [ends.part c rfl]

theorem hexTextRun_word (parts : u.all isNamePart) (ends : EndsWord cs) : hexTextRun (u ++ cs) = none := by
  have word := takeWhile_word parts ends
  generalize hv : u ++ cs = v at word ⊢
  unfold hexTextRun
  split
  · next q rest =>
    split
    · next quote =>
      -- The quote would follow the word `hex` at once.
      have part : isNamePart q = false := by
        simp only [Bool.or_eq_true,beq_iff_eq] at quote
        obtain rfl | rfl := quote <;> decide
      have hex : u = ['h','e','x'] := by
        rw [← word,takeWhile_cons_of_pos (by decide),takeWhile_cons_of_pos (by decide),
          takeWhile_cons_of_pos (by decide),takeWhile_cons_of_neg (by simp [part])]
      subst hex
      have head : cs.head? = some q := by
        simp only [cons_append,nil_append,List.cons.injEq,true_and] at hv
        rw [hv]
        rfl
      have := ends.quote q head
      simp [this.1,this.2] at quote
    · rfl
  · rfl

theorem IsWord.clear (h : t.IsWord) (ends : EndsWord cs)
    (payable : t.text = "address" → ¬ " payable".toList <+: cs) : Clear t cs := by
  obtain ⟨c,rest,eq,start⟩ := h.starts
  have word := takeWhile_word h.parts ends
  have short : "address payable".toList.isPrefixOf (t.text.toList ++ cs) = false := by
    rw [Bool.eq_false_iff]
    intro isPrefix
    obtain ⟨z,hz⟩ := isPrefixOf_iff_prefix.1 isPrefix
    have stem : t.text.toList = "address".toList := by
      rw [← word,← hz]
      simp [isNamePart]
    have same : t.text = "address" := String.toList_injective stem
    refine payable same ⟨z,?_⟩
    rw [stem] at hz
    exact (append_right_inj "address".toList).1 hz
  unfold Clear lexeme
  rw [eq,cons_append]
  simp only [start,if_true,wordLexeme]
  rw [← cons_append,← eq,hexTextRun_word h.parts ends]
  simp only [short,Bool.false_eq_true,if_false,word,String.ofList_toList,h.kind,String.length_toList]

theorem IsWord.written (h : t.IsWord) : t.IsWritten := by
  obtain ⟨c,rest,eq,-⟩ := h.starts
  refine ⟨by simp [eq],?_⟩
  rw [← h.kind]
  unfold wordKind
  split_ifs <;> decide

theorem isNamePart_of_isNameStart (h : isNameStart c) : isNamePart c := by
  simp only [isNameStart,isNamePart,Char.isAlphanum,Bool.or_eq_true] at h ⊢
  tauto

theorem wordLexeme_cases (start : isNameStart c) (h : wordLexeme (c :: cs) = (k,n)) :
    (k = .hexText ∧ hexTextRun (c :: cs) = some n) ∨ (k = .fixed ∧ n = 15 ∧ "address payable".toList <+: c :: cs) ∨
      (n = ((c :: cs).takeWhile isNamePart).length ∧ (ofKind k (String.ofList ((c :: cs).take n))).IsWord) := by
  unfold wordLexeme at h
  split at h
  next run =>
    obtain ⟨rfl,rfl⟩ := Prod.mk.inj h
    exact .inl ⟨rfl,run⟩
  next =>
    split_ifs at h with payable
    · obtain ⟨rfl,rfl⟩ := Prod.mk.inj h
      exact .inr (.inl ⟨rfl,rfl, isPrefixOf_iff_prefix.1 payable⟩)
    · obtain ⟨rfl,rfl⟩ := Prod.mk.inj h
      have take : (c :: cs).take ((c :: cs).takeWhile isNamePart).length = (c :: cs).takeWhile isNamePart :=
        prefix_iff_eq_take.1 ( takeWhile_prefix isNamePart) ▸ rfl
      rw [take]
      refine .inr (.inr ⟨rfl,⟨c,cs.takeWhile isNamePart,?_,start⟩,?_,rfl⟩)
      · simp [ofKind,takeWhile_cons_of_pos (isNamePart_of_isNameStart start)]
      · simp [ofKind,all_takeWhile]

theorem isWord_of_lexeme (h : lexeme cs = (k,n))
    (hk : k = .name ∨ k = .truth ∨ k = .sizedType) : (ofKind k (String.ofList (cs.take n))).IsWord := by
  cases cs with
  | nil =>
    obtain ⟨rfl,-⟩ := Prod.mk.inj h
    simp at hk
  | cons c cs =>
    obtain ⟨start,eq,-⟩ | ⟨-,-,-,kind⟩ | ⟨-,-,kind⟩ | ⟨-,kind⟩ := lexeme_cases c cs
    · obtain ⟨rfl,-⟩ | ⟨rfl,-⟩ | ⟨-,word⟩ := wordLexeme_cases start (eq ▸ h)
      · simp at hk
      · simp at hk
      · exact word
    all_goals
      rw [h] at kind
      obtain rfl | rfl | rfl := hk <;> simp at kind

/-! ### Signs -/

def isSignPart (c : Char) : Bool :=
  signs.any fun s => s.toList.contains c

theorem prefix_append_iff {test : Char → Bool} {v : List Char} (all : u.all test) (ends : ∀ c ∈ cs.head?, test c = false) :
    u <+: v ++ cs ↔ u <+: v := by
  refine ⟨fun h => ?_,fun h => h.trans (prefix_append v cs)⟩
  obtain h | ⟨w,rfl⟩ := prefix_or_prefix_of_prefix h (prefix_append v cs)
  · exact h
  · have rest : w <+: cs := (prefix_append_right_inj v).1 h
    cases w with
    | nil => simp
    | cons c =>
      obtain ⟨z,rfl⟩ := rest
      simp only [all_append,all_cons,Bool.and_eq_true] at all
      have no := ends c rfl
      rw [all.2.1] at no
      contradiction

theorem signLexeme_append (h : text ∈ signs) (ends : ∀ c ∈ cs.head?, isSignPart c = false) :
    signLexeme (text.toList ++ cs) = (.fixed,text.length) := by
  have all : ∀ s ∈ signs, s.toList.all isSignPart := by decide +kernel
  have same : signs.find? (fun s => s.toList.isPrefixOf (text.toList ++ cs)) = signs.find? fun s => s.toList.isPrefixOf text.toList := by
    refine find?_congr fun s hs => ?_
    rw [Bool.eq_iff_iff, isPrefixOf_iff_prefix, isPrefixOf_iff_prefix]
    exact prefix_append_iff (all s hs) ends
  have itself : ∀ text ∈ signs, signs.find? (fun s => s.toList.isPrefixOf text.toList) = some text := by decide +kernel
  rw [signLexeme,same,itself text h]

theorem slashLexeme_append (h : text ∈ signs) (ends : ∀ c ∈ cs.head?, isSignPart c = false) :
    slashLexeme (text.toList ++ cs) = signLexeme (text.toList ++ cs) := by
  have slashes : ∀ text ∈ signs, text.toList.head? = some '/' → text = "/" ∨ text = "/=" := by decide +kernel
  have no {c : Char} (part : isSignPart c) (rest : List Char) : cs ≠ c :: rest := by
    rintro rfl
    rw [ends c rfl] at part
    contradiction
  -- Only a sign that starts with a slash could open a comment.
  have comment {c : Char} (hc : c = '/' ∨ c = '*') (rest : List Char) : text.toList ++ cs ≠ '/' :: c :: rest := by
    intro eq
    have head : text.toList.head? = some '/' := by
      cases ht : text.toList with
      | nil =>
        rw [ht,nil_append] at eq
        exact absurd eq (no (by decide +kernel) _)
      | cons =>
        rw [ht] at eq
        simp only [cons_append,List.cons.injEq] at eq
        rw [eq.1]
        rfl
    obtain rfl | rfl := slashes text h head
    · have tail : cs = c :: rest := (List.cons.inj eq).2
      obtain rfl | rfl := hc <;> exact no (by decide +kernel) rest tail
    · have second : '=' = c := (List.cons.inj (List.cons.inj eq).2).1
      obtain rfl | rfl := hc <;> exact absurd second (by decide)
  unfold slashLexeme
  split
  · next rest eq => exact absurd eq (comment (.inl rfl) rest)
  · next rest eq => exact absurd eq (comment (.inr rfl) rest)
  · rfl

theorem clear_sign (h : text ∈ signs) (ends : ∀ c ∈ cs.head?, isSignPart c = false) : Clear (sign text) cs := by
  have starts : ∀ text ∈ signs, (text.toList.head?.any fun c =>
      !isNameStart c && !c.isDigit && !isSpace c && !(c == '"' || c == '\'')) = true := by decide +kernel
  have cut := (slashLexeme_append h ends).trans (signLexeme_append h ends)
  have start := starts text h
  unfold Clear Token.sign lexeme
  cases eq : text.toList with
  | nil => simp [eq] at start
  | cons =>
    rw [eq] at start cut
    simp only [head?_cons,Option.any_some,Bool.and_eq_true,Bool.not_eq_true'] at start
    obtain ⟨⟨⟨name,digit⟩,space⟩,quote⟩ := start
    simp only [cons_append,name,digit,space,quote,Bool.false_eq_true,if_false]
    exact cut

theorem written_sign (h : text ∈ signs) : (sign text).IsWritten := by
  have full : ∀ text ∈ signs, text.toList ≠ [] := by decide +kernel
  exact ⟨full text h,Kind.noConfusion⟩

structure IsSpaced (t : Token) : Prop extends t.IsWritten where
  clear : ∀ cs : List Char, (∀ c ∈ cs.head?, c = ' ') → Clear t cs

theorem IsSpaced.sign (h : text ∈ signs) : (sign text).IsSpaced := by
  refine ⟨written_sign h,fun cs space => clear_sign h fun c hc => ?_⟩
  rw [space c hc]
  decide +kernel

theorem IsWord.spaced (h : t.IsWord) (ne : t.text ≠ "address") : t.IsSpaced := by
  refine ⟨h.written,fun cs space => h.clear ⟨?_,?_⟩ fun eq => absurd eq ne⟩
  · intro c hc
    rw [space c hc]
    decide
  · intro c hc
    rw [space c hc]
    decide

theorem cutUp_intercalate {ts : List Token} (h : ∀ t ∈ ts, t.IsSpaced) :
    cutUp (String.intercalate " " (ts.map (·.text))).toList = ts.map still ++ [ofKind .finish ""] := by
  induction ts with
  | nil => rfl
  | cons t ts ih =>
    have here := h t (by simp)
    cases ts with
    | nil =>
      have one := cutUp_append (here.clear [] (by simp)) here.toIsWritten
      simpa [cutUp_nil] using one
    | cons u us =>
      have more := ih fun t ht => h t (by simp [ht])
      have one := cutUp_append (here.clear (' ' :: (String.intercalate " " ((u :: us).map (·.text))).toList) (by simp)) here.toIsWritten
      have space := cutUp_spaces (u := [' ']) (by decide) (String.intercalate " " ((u :: us).map (·.text))).toList
      rw [singleton_append,more] at space
      rw [space] at one
      simpa [String.intercalate_cons_cons] using one

end Confidential.Token
