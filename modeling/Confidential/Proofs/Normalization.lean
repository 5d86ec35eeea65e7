import Confidential.Proofs.Emission
import Confidential.Proofs.Literals

/-!
Texts with single spaces between their tokens.
-/

namespace Confidential

open List

namespace Token

variable {u w cs : List Char}

variable {c q : Char} {n : Nat} {k : Kind} {ts : List Token} {last : List Char}

theorem decimalRun_le (u : List Char) : decimalRun u ≤ u.length := by
  have first := digitsRun_le (d := Char.isDigit) u
  have length := length_drop (l := u) (i := digitsRun Char.isDigit u)
  unfold decimalRun
  dsimp only
  split
  next c rest eq =>
    have more := digitsRun_le (d := Char.isDigit) rest
    rw [eq,length_cons] at length
    split_ifs <;> omega
  next => exact first

theorem hexRun_le (u : List Char) : hexRun u ≤ u.length := by
  unfold hexRun
  split
  next c rest =>
    have more := digitsRun_le (d := isHexDigit) rest
    dsimp only
    split_ifs <;> simp
    omega
  next => exact Nat.zero_le _

theorem versionRun_le (u : List Char) : versionRun u ≤ u.length := by
  have parts (v : List Char) := congrArg List.length (takeWhile_append_dropWhile (p := Char.isDigit) (l := v))
  have short (v : List Char) := ( takeWhile_prefix Char.isDigit (l := v)).length_le
  simp only [length_append] at parts
  unfold versionRun
  dsimp only
  grind

theorem hexPairsRun_quote (quote : q ≠ '_') (x : List Char) : hexPairsRun q (q :: x) = some 1 := by
  cases x with
  | nil => simp [hexPairsRun]
  | cons => rw [hexPairsRun.eq_2 _ _ _ _ (by simp [quote])]; simp

theorem hexPairsRun_append (quote : q ≠ '_') (h : hexPairsRun q cs = some n) (x : List Char) :
    0 < n ∧ n ≤ cs.length ∧ hexPairsRun q (cs.take n ++ x) = some n := by
  fun_induction hexPairsRun q cs generalizing n with
  | case1 _ _ _ digits ih =>
    obtain ⟨m,run,rfl⟩ := Option.map_eq_some_iff.1 h
    obtain ⟨-,short,same⟩ := ih run
    simp [hexPairsRun,digits,same,short]
  | case3 _ _ _ _ same =>
    obtain rfl := Option.some.inj h
    obtain rfl := beq_iff_eq.1 same
    simp [hexPairsRun_quote quote]
  | case4 c _ _ _ same digits ih =>
    obtain ⟨m,run,rfl⟩ := Option.map_eq_some_iff.1 h
    obtain ⟨-,short,more⟩ := ih run
    have plain : c ≠ '_' := by
      rintro rfl
      simp [isHexDigit] at digits
    simp only [take_succ_cons,cons_append]
    rw [hexPairsRun.eq_2 _ _ _ _ (by simp [plain])]
    simp [same,digits,more,short]
  | case6 _ same =>
    obtain rfl := Option.some.inj h
    obtain rfl := beq_iff_eq.1 same
    simp [hexPairsRun_quote quote]
  | _ => cases h

theorem hexTextRun_append (h : hexTextRun cs = some n) (x : List Char) :
    0 < n ∧ n ≤ cs.length ∧ hexTextRun (cs.take n ++ x) = some n := by
  unfold hexTextRun at h
  split at h
  next q rest =>
    split at h
    next quote =>
      have plain : q ≠ '_' := by
        rintro rfl
        simp at quote
      split at h
      · cases h
      next other =>
        obtain ⟨m,run,rfl⟩ := Option.map_eq_some_iff.1 h
        obtain ⟨full,short,same⟩ := hexPairsRun_append plain run x
        obtain ⟨m,rfl⟩ := Nat.exists_eq_succ_of_ne_zero (Nat.pos_iff_ne_zero.1 full)
        cases rest with
        | nil => simp at short
        | cons d rest =>
          simp only [take_succ_cons,cons_append] at same
          have under : d ≠ '_' := fun eq => other rest (by rw [eq])
          simp [hexTextRun,quote,same,under]
          simpa using short
    next => cases h
  next => cases h

theorem numberLexeme_take (h : numberLexeme cs = (k,n)) {x : List Char}
    (ends : EndsNumber x) : n ≤ cs.length ∧ numberLexeme (cs.take n ++ x) = (k,n) := by
  have runs : versionRun cs ≤ n ∧ decimalRun cs ≤ n ∧ hexRun cs ≤ n ∧ n ≤ cs.length := by
    have version := versionRun_le cs
    have decimal := decimalRun_le cs
    have hexadecimal := hexRun_le cs
    unfold numberLexeme at h
    grind
  obtain ⟨version,decimal,hexadecimal,short⟩ := runs
  have length : (cs.take n).length = n := length_take_of_le short
  have whole : cs.take n ++ cs.drop n = cs := take_append_drop n cs
  have versions := versionRun_of_le (u := cs.take n) (w := cs.drop n) (by rwa [whole,length])
  have decimals := decimalRun_of_le (u := cs.take n) (w := cs.drop n) (by rwa [whole,length])
  have hexadecimals := hexRun_of_le (u := cs.take n) (w := cs.drop n) (by rwa [whole,length])
  rw [whole] at versions decimals hexadecimals
  refine ⟨short,?_⟩
  rw [numberLexeme_append ends,← h,numberLexeme,numberLexeme,versions,decimals,hexadecimals]

/-! ### Tokens before a space -/

/-- The next word runs into the word `address`. -/
def Glues (t u : Token) : Prop :=
  t.text = "address" ∧ "payable".toList <+: u.text.toList

instance (t u : Token) : Decidable (t.Glues u) :=
  inferInstanceAs (Decidable (_ ∧ _))

/-- The token that a text starts with is cut off in the same way before a space and at the end. -/
structure IsApart (cs : List Char) (k : Kind) (n : Nat) : Prop where
  full : 0 < n
  short : n ≤ cs.length
  clear : ∀ x : List Char, (∀ c ∈ x.head?, c = ' ') → (cs.take n = "address".toList → ¬ " payable".toList <+: x) →
    lexeme (cs.take n ++ x) = (k,n)

theorem isApart_word (start : isNameStart c) (h : wordLexeme (c :: u) = (k,n)) :
    IsApart (c :: u) k n := by
  obtain ⟨rfl,run⟩ | ⟨rfl,rfl,payable⟩ | ⟨length,word⟩ := wordLexeme_cases start h
  · have append := hexTextRun_append run
    refine ⟨(append []).1,(append []).2.1,fun x _ _ => ?_⟩
    have more := (append x).2.2
    obtain ⟨m,rfl⟩ := Nat.exists_eq_succ_of_ne_zero (Nat.pos_iff_ne_zero.1 (append []).1)
    rw [take_succ_cons,cons_append] at more ⊢
    rw [lexeme,if_pos start,wordLexeme,more]
  · have eq := prefix_iff_eq_take.1 payable
    refine ⟨by decide,payable.length_le,fun x _ _ => ?_⟩
    rw [show (c :: u).take 15 = "address payable".toList from eq.symm]
    rfl
  · have short : n ≤ (c :: u).length := length ▸ ( takeWhile_prefix _).length_le
    refine ⟨?_,short,fun x space payable => ?_⟩
    · simp [length,takeWhile_cons_of_pos (isNamePart_of_isNameStart start)]
    · have ends : EndsWord x := ⟨fun d hd => space d hd ▸ by decide,fun d hd => space d hd ▸ by decide⟩
      have clear := word.clear ends fun eq => payable (by simpa [ofKind] using congrArg String.toList eq)
      rw [Clear,ofKind,String.toList_ofList,← String.length_toList,String.toList_ofList,length_take_of_le short] at clear
      exact clear

theorem isApart_number (start : isNameStart c = false) (digit : c.isDigit)
    (h : numberLexeme (c :: u) = (k,n)) : IsApart (c :: u) k n := by
  have full : 0 < n := by
    have run : 0 < decimalRun (c :: u) := by
      simp only [decimalRun,digitsRun,digit,if_true]
      split
      · split_ifs <;> omega
      · omega
    unfold numberLexeme at h
    grind
  have ends {x : List Char} (space : ∀ c ∈ x.head?, c = ' ') : EndsNumber x := fun d hd => space d hd ▸ by decide
  refine ⟨full,(numberLexeme_take h (ends (x := []) (by simp))).1,fun x space _ => ?_⟩
  have more := (numberLexeme_take h (ends space)).2
  obtain ⟨m,rfl⟩ := Nat.exists_eq_succ_of_ne_zero (Nat.pos_iff_ne_zero.1 full)
  rw [take_succ_cons,cons_append] at more ⊢
  simp only [lexeme,start,digit,Bool.false_eq_true,if_false,if_true]
  exact more

theorem isApart_quoted (quote : c = '"' ∨ c = '\'') (h : quotedLexeme c u = (k,n))
    (proper : k.isProper) : IsApart (c :: u) k n := by
  have plain : c ≠ '\\' := by obtain rfl | rfl := quote <;> decide
  have eq (cs : List Char) : lexeme (c :: cs) = quotedLexeme c cs := by obtain rfl | rfl := quote <;> rfl
  unfold quotedLexeme at h
  split at h
  · obtain ⟨rfl,-⟩ := Prod.mk.inj h
    cases proper
  next m run =>
    obtain ⟨inner,rest,rfl,rfl,fine⟩ := (Quotation.quotedRun_eq_some_iff plain).1 run
    have take (x : List Char) : (c :: (inner ++ c :: x)).take (inner.length + 1 + 1) = c :: (inner ++ [c]) := by
      simp [take_append]
    rw [take] at h
    have whole : n = inner.length + 1 + 1 := by
      split_ifs at h <;> exact (Prod.mk.inj h).2.symm
    refine ⟨by omega,by simp [whole],fun x _ _ => ?_⟩
    have run : quotedRun c (inner ++ c :: x) = some (inner.length + 1) :=
      (Quotation.quotedRun_eq_some_iff plain).2 ⟨inner,x,rfl,rfl,fine⟩
    rw [whole,take,cons_append,append_assoc,singleton_append,eq,quotedLexeme,run]
    dsimp only
    rw [take,← whole]
    simpa [whole] using h

theorem isApart_sign (h : slashLexeme cs = (k,n)) (proper : k.isProper) (seen : k ≠ .hidden) :
    IsApart cs k n := by
  have sign : signLexeme cs = (k,n) := by
    unfold slashLexeme at h
    split at h
    · exact absurd (Prod.mk.inj h).1.symm seen
    · split at h
      · exact absurd (Prod.mk.inj h).1.symm seen
      · exact h
    · exact h
  unfold signLexeme at sign
  split at sign
  next s found =>
    obtain ⟨rfl,rfl⟩ := Prod.mk.inj sign
    have mem := mem_of_find?_eq_some found
    have start : s.toList <+: cs := isPrefixOf_iff_prefix.1 (by simpa using find?_some found)
    have take : cs.take s.length = s.toList := by
      rw [← String.length_toList]
      exact (prefix_iff_eq_take.1 start).symm
    refine ⟨?_,String.length_toList ▸ start.length_le,fun x space _ => ?_⟩
    · rw [← String.length_toList]
      exact length_pos_iff.2 (written_sign mem).full
    · rw [take]
      exact (IsSpaced.sign mem).clear x space
  next =>
    obtain ⟨rfl,-⟩ := Prod.mk.inj sign
    cases proper

theorem isApart_of_lexeme (h : lexeme cs = (k,n)) (proper : k.isProper) (seen : k ≠ .hidden) :
    IsApart cs k n := by
  cases cs with
  | nil =>
    obtain ⟨rfl,-⟩ := Prod.mk.inj h
    cases proper
  | cons c u =>
    obtain ⟨start,eq,-⟩ | ⟨start,digit,eq,-⟩ | ⟨quote,eq,-⟩ | ⟨eq | eq,-⟩ := lexeme_cases c u
    · exact isApart_word start (eq ▸ h)
    · exact isApart_number start digit (eq ▸ h)
    · exact isApart_quoted quote (eq ▸ h) proper
    · exact isApart_sign (eq ▸ h) proper seen
    · rw [h] at eq
      exact absurd eq seen

theorem IsLexed.clear {t : Token} (h : t.IsLexed) (proper : t.kind.isProper) (seen : t.kind ≠ .hidden) :
    t.IsWritten ∧ ∀ x : List Char, (∀ c ∈ x.head?, c = ' ') → (t.text = "address" → ¬ " payable".toList <+: x) → Clear t x := by
  obtain ⟨c,cs,kind,text⟩ := h
  rw [kind] at proper seen
  have apart : IsApart (c :: cs) (lexeme (c :: cs)).1 (lexeme (c :: cs)).2 := isApart_of_lexeme rfl proper seen
  have chars : t.text.toList = (c :: cs).take (lexeme (c :: cs)).2 := by
    rw [text,String.toList_ofList,Nat.sub_add_cancel apart.full]
  have length : t.text.length = (lexeme (c :: cs)).2 := by
    rw [← String.length_toList,chars,length_take_of_le apart.short]
  refine ⟨⟨ne_nil_of_length_pos ?_,by rwa [kind]⟩,fun x space payable => ?_⟩
  · rw [String.length_toList,length]
    exact apart.full
  · rw [Clear,chars,length,kind]
    exact apart.clear x space fun eq => payable (String.toList_injective (chars.trans eq))

/-- The texts of the tokens, each with a space behind it. -/
def spaced (ts : List Token) (last : List Char) : List Char :=
  ts.foldr (fun t cs => t.text.toList ++ ' ' :: cs) last

theorem spaced_still (ts : List Token) (last : List Char) : spaced (ts.map still) last = spaced ts last := by
  simp [spaced,foldr_map]

theorem payable_spaced_iff (space : ∀ c ∈ last.head?, c = ' ') :
    "payable".toList <+: spaced ts last ↔ ∃ u ∈ ts.head?, "payable".toList <+: u.text.toList := by
  have word : "payable".toList.all (· != ' ') := by decide
  cases ts with
  | nil =>
    have void : "payable".toList <+: [] ++ last ↔ "payable".toList <+: [] :=
      prefix_append_iff word fun c hc => by simp [space c hc]
    simpa [spaced] using void
  | cons u us =>
    have here : "payable".toList <+: u.text.toList ++ ' ' :: spaced us last ↔ "payable".toList <+: u.text.toList :=
      prefix_append_iff word (by simp)
    simpa [spaced] using here

/-- With spaces between them the tokens are cut up again, unless two of them are glued together. -/
theorem cutUp_spaced_iff (space : ∀ c ∈ last, c = ' ') (lexed : ∀ t ∈ ts, t.IsLexed ∧ t.kind.isProper ∧ t.kind ≠ .hidden) :
    cutUp (spaced ts last) = ts.map still ++ [ofKind .finish ""] ↔ ts.IsChain fun t u => ¬ t.Glues u := by
  have start : ∀ c ∈ last.head?, c = ' ' := fun c hc => space c (mem_of_mem_head? hc)
  have skip (cs : List Char) : cutUp (' ' :: cs) = cutUp cs := cutUp_spaces (u := [' ']) (by decide) cs
  induction ts with
  | nil =>
    have void := cutUp_spaces (u := last) (by simpa using fun c hc => by rw [space c hc]; rfl) []
    simpa [spaced,cutUp_nil] using void
  | cons t ts ih =>
    obtain ⟨⟨here,proper,seen⟩,more⟩ := forall_mem_cons.1 lexed
    obtain ⟨written,clear⟩ := here.clear proper seen
    rw [isChain_cons]
    by_cases glued : t.text = "address" ∧ "payable".toList <+: spaced ts last
    · refine iff_of_false (fun eq => ?_) fun chain => ?_
      · obtain ⟨z,hz⟩ := glued.2
        have clear : Clear (sign "address payable") z := rfl
        have cut := cutUp_append clear ⟨by decide,by decide⟩
        have chars : spaced (t :: ts) last = (sign "address payable").text.toList ++ z := by
          rw [spaced,foldr_cons,glued.1,← spaced,← hz]
          rfl
        rw [chars,cut] at eq
        have text : "address payable" = t.text := congrArg text (List.cons.inj eq).1
        exact absurd (text.trans glued.1) (by decide)
      · obtain ⟨u,hu,payable⟩ := (payable_spaced_iff start).1 glued.2
        exact chain.1 u hu ⟨glued.1,payable⟩
    · have apart : ∀ u ∈ ts.head?, ¬ t.Glues u := fun u hu both =>
        glued ⟨both.1,(payable_spaced_iff start).2 ⟨u,hu,both.2⟩⟩
      have cut := cutUp_append (clear (' ' :: spaced ts last) (by simp) fun eq payable =>
        glued ⟨eq,(prefix_cons_inj ' ').1 payable⟩) written
      rw [skip] at cut
      rw [show spaced (t :: ts) last = t.text.toList ++ ' ' :: spaced ts last from rfl,cut,map_cons,cons_append,
        List.cons.injEq]
      exact and_congr (iff_of_true rfl apart) (ih more)

end Token

open Token

namespace Emitter

variable {front : List (Token × Nat)} {last : Token × Nat} {again : Bool}

theorem emit_after (proper : ∀ t ∈ front, t.1.kind ≠ .finish) (finish : last.1.kind = .finish) (written : String) :
    ((front ++ [last] ++ if again then [] else [last]).foldl visit ⟨none,1,written⟩).emitted.toList =
      written.toList ++ ' ' :: spaced (front.map (·.1)) (if again then [] else [' ']) := by
  induction front generalizing written with
  | nil => cases again <;> simp [visit,hiddenUpTo,finish,spaced]
  | cons t _ ih =>
    obtain ⟨here,more⟩ := forall_mem_cons.1 proper
    have one : visit ⟨none,1,written⟩ t = ⟨none,1,written ++ (" " ++ t.1.text)⟩ := by simp [visit,hiddenUpTo,here]
    rw [cons_append,cons_append,foldl_cons,one,ih more]
    simp [spaced]

theorem emit_plain (proper : ∀ t ∈ front, t.1.kind ≠ .finish) (finish : last.1.kind = .finish) :
    ({ stream := none : Emitter }.emit (front ++ [last] ++ if again then [] else [last])).toList =
      spaced (front.map (·.1)) (if again then [] else [' ']) := by
  cases front with
  | nil => cases again <;> simp [emit,visit,hiddenUpTo,finish,spaced]
  | cons t =>
    obtain ⟨here,more⟩ := forall_mem_cons.1 proper
    have one : visit { stream := none } t = ⟨none,1,t.1.text⟩ := by simp [visit,hiddenUpTo,here]
    rw [emit,cons_append,cons_append,foldl_cons,one,emit_after more finish]
    rfl

end Emitter

theorem Surface.Source.isUnit_still (s : Surface.Source) : s.still.isUnit = s.isUnit := by
  cases s <;> rfl

namespace Source

variable {text : String} {s : Surface.Source}

theorem normalized_eq (h : parse text = .ok s) : ∃ taken q, visible (ofSource text) = taken ++ [⟨.finish,"",q⟩] ∧
    (∀ t ∈ taken, t.IsLexed ∧ t.kind.isProper ∧ t.kind ≠ .hidden) ∧
    normalized text = .ok (String.ofList (spaced taken (if s.isUnit then [] else [' ']))) := by
  obtain ⟨e,read,-⟩ | ⟨s',front,last,read,leaves,split,lexed,finish,empty⟩ := leaves_cases text
  · rw [h] at read
    cases read
  rw [h] at read
  cases read
  have tokens : visible (ofSource text) = front.map (·.1) ++ [last.1] := by rw [← map_shown,split,map_append]; rfl
  have proper : ∀ t ∈ front, t.1.kind ≠ .finish := by
    intro t ht eq
    have proper := (lexed t ht).1
    rw [eq] at proper
    cases proper
  obtain ⟨⟨kind,text,q⟩,n⟩ := last
  obtain rfl : kind = .finish := finish
  obtain rfl : text = "" := empty
  refine ⟨front.map (·.1),q,tokens,?_,?_⟩
  · intro t ht
    have seen : t ∈ visible (ofSource _) := tokens ▸ mem_append_left _ ht
    obtain ⟨u,hu,rfl⟩ := mem_map.1 ht
    exact ⟨(lexed u hu).2,(lexed u hu).1,by simpa [isHidden] using (mem_filter.1 seen).2⟩
  · rw [normalized,leaves,← Emitter.emit_plain proper (rfl : ((⟨.finish,"",q⟩,n) : Token × Nat).1.kind = _),String.ofList_toList]
    rfl

theorem parse_eq_ok_iff : parse text = .ok s ↔ Surface.Source.parse text = .ok s := by
  unfold parse
  cases Surface.Source.parse text with
  | ok => simp
  | error t =>
    dsimp only
    cases unexpected t text <;> simp [Bind.bind,Except.bind]

end Source

/-- A text that can be read has a normal form. The normal form consists of the same visible tokens, kinds and texts, unless the
word `address` stands before a word that starts with `payable`. Then it is its own normal form and is read as the same tree,
places apart. -/
theorem normalization_kept_iff {text : String} {s : Surface.Source} (h : Source.parse text = .ok s) :
    ∃ normal, Source.normalized text = .ok normal ∧
      ((visible (ofSource normal)).map still = (visible (ofSource text)).map still ↔
        (visible (ofSource text)).IsChain fun t u => ¬ t.Glues u) ∧
      ((visible (ofSource text)).IsChain (fun t u => ¬ t.Glues u) → Source.normalized normal = .ok normal ∧
        ∃ s', Source.parse normal = .ok s' ∧ s'.still = s.still) := by
  obtain ⟨taken,q,tokens,lexed,normal⟩ := Source.normalized_eq h
  refine ⟨_,normal,?_⟩
  generalize hn : String.ofList (spaced taken (if s.isUnit then [] else [' '])) = normal
  have same : (visible (ofSource normal)).map still = (visible (ofSource text)).map still ↔
      (visible (ofSource text)).IsChain fun t u => ¬ t.Glues u := by
    have cut : (visible (ofSource normal)).map still = cutUp (spaced taken (if s.isUnit then [] else [' '])) := by
      rw [cutUp,ofSource,← hn,String.toList_ofList]
    have spaces : ∀ c ∈ (if s.isUnit then [] else [' ']), c = ' ' := by split <;> simp
    rw [cut,tokens,List.map_append,List.isChain_append]
    refine (cutUp_spaced_iff spaces lexed).trans ?_
    simp [Glues]
  refine ⟨same,fun chain => ?_⟩
  have eq := same.2 chain
  obtain ⟨s',read,still⟩ := Surface.Source.exists_of_still (eq ▸ Surface.Source.ofTokens_still (Source.parse_eq_ok_iff.1 h))
  have read := Source.parse_eq_ok_iff.2 read
  refine ⟨?_,s',read,still⟩
  obtain ⟨taken',q',tokens',-,again⟩ := Source.normalized_eq read
  rw [tokens,tokens',List.map_append,List.map_append] at eq
  have taken_eq := (List.append_inj' eq rfl).1
  have unit : s'.isUnit = s.isUnit := by rw [← Surface.Source.isUnit_still,still,Surface.Source.isUnit_still]
  rw [again,← hn,unit,← spaced_still,taken_eq,spaced_still]

theorem glued_words_not_kept :
    (∃ s normal, Source.parse "contract C \x7b address\npayableX; \x7d" = .ok s ∧
      Source.normalized "contract C \x7b address\npayableX; \x7d" = .ok normal ∧
      (visible (ofSource normal)).map still ≠ (visible (ofSource "contract C \x7b address\npayableX; \x7d")).map still) ∧
    ∃ s normal s', Source.parse "SOL a -\t1 /* one */" = .ok s ∧ Source.normalized "SOL a -\t1 /* one */" = .ok normal ∧
      Source.normalized normal = .ok normal ∧ Source.parse normal = .ok s' ∧ s'.still = s.still := by
  have read {x : Outcome Surface.Source} (h : x.toOption.isSome = true) : ∃ s, x = .ok s := by
    cases x with
    | ok s => exact ⟨s,rfl⟩
    | error e => cases h
  constructor
  · obtain ⟨s,h⟩ := read (x := Source.parse "contract C \x7b address\npayableX; \x7d") (by decide +kernel)
    obtain ⟨normal,eq,same,-⟩ := normalization_kept_iff h
    exact ⟨s,normal,h,eq,mt same.1 (by decide +kernel)⟩
  · obtain ⟨s,h⟩ := read (x := Source.parse "SOL a -\t1 /* one */") (by decide +kernel)
    obtain ⟨normal,eq,-,kept⟩ := normalization_kept_iff h
    obtain ⟨again,s',read,still⟩ := kept (by decide +kernel)
    exact ⟨s,normal,s',h,eq,again,read,still⟩

end Confidential
