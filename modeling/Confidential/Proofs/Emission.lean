import Confidential.Proofs.FlatSources
import Confidential.Proofs.PlacelessSources
import Confidential.Proofs.Spelling

/-!
Writing a tree again.
-/

namespace Confidential

open List

namespace Token

/-- A token that the lexer cuts off from some text. -/
def IsLexed (t : Token) : Prop :=
  ∃ c cs, t.kind = (lexeme (c :: cs)).1 ∧ t.text = String.ofList ((c :: cs).take ((lexeme (c :: cs)).2 - 1 + 1))

theorem IsLexed.kind_ne_finish {t : Token} (h : t.IsLexed) : t.kind ≠ .finish := by
  obtain ⟨c,cs,kind,-⟩ := h
  rw [kind]
  intro eq
  have cases := lexeme_cases c cs
  simp [eq] at cases

theorem exists_scan_eq (p : Pos) (k : Nat) (cs : List Char) :
    ∃ front q, scan p k cs = front ++ [⟨.finish,"",q⟩] ∧ ∀ t ∈ front, t.IsLexed := by
  induction cs generalizing p k with
  | nil => exact ⟨[],p,rfl,by simp⟩
  | cons c rest ih =>
    cases k with
    | succ => exact ih _ _
    | zero =>
      obtain ⟨front,q,eq,lexed⟩ := ih (p.after c) ((lexeme (c :: rest)).2 - 1)
      refine ⟨_ :: front,q,congrArg (List.cons _) eq,?_⟩
      exact forall_mem_cons.2 ⟨⟨c,rest,rfl,rfl⟩,lexed⟩

theorem exists_visible_eq (text : String) :
    ∃ front q, visible (ofSource text) = front ++ [⟨.finish,"",q⟩] ∧ ∀ t ∈ front, t.IsLexed := by
  obtain ⟨front,q,eq,lexed⟩ := exists_scan_eq .first 0 text.toList
  refine ⟨visible front,q,?_,fun t ht => lexed t (mem_of_mem_filter ht)⟩
  simp [visible,ofSource,eq,isHidden]

theorem map_shown (ts : List Token) : (shown ts).map (·.1) = visible ts := by
  have test : (fun t : Token × Nat => !t.1.isHidden) = (fun t => !t.isHidden) ∘ Prod.fst := rfl
  rw [shown,visible,test,← filter_map,zipIdx_map_fst]

end Token

namespace Emitter

open Token

theorem visit_eq {all pre pending ts : List Token} {t : Token} {e : Emitter} (stream : e.stream = some all)
    (tokens : all = pre ++ (pending ++ t :: ts)) (next : e.next = pre.length) (hidden : ∀ t ∈ pending, t.isHidden)
    (seen : t.isHidden = false) (last : t.kind = .finish → t.text = "") :
    e.visit (t,pre.length + pending.length) =
      ⟨some all,pre.length + pending.length + 1,e.emitted ++ (source pending ++ t.text)⟩ := by
  have length : pre.length + pending.length + 1 - pre.length = pending.length + 1 := by omega
  have passed : (all.drop pre.length).take (pending.length + 1) = pending ++ [t] := by
    simp [tokens,take_append]
  have skipped : (pending ++ [t]).filter isHidden = pending := by
    simpa [seen] using hidden
  have code : (if t.kind == .finish then "" else t.text) = t.text := by
    split <;> simp_all
  simp only [visit,hiddenUpTo,stream,next,length,passed,skipped,code]
  simp [Nat.add_assoc]

theorem emit_shown {all pre pending ts : List Token} {e : Emitter} (stream : e.stream = some all)
    (tokens : all = pre ++ (pending ++ ts)) (next : e.next = pre.length) (hidden : ∀ t ∈ pending, t.isHidden)
    (ends : ∀ t ∈ (pending ++ ts).getLast?, t.isHidden = false) (last : ∀ t ∈ ts, t.kind = .finish → t.text = "") :
    ((ts.zipIdx (pre.length + pending.length)).filter fun t => !t.1.isHidden).foldl visit e =
      ⟨some all,all.length,e.emitted ++ source (pending ++ ts)⟩ := by
  induction ts generalizing pre pending e with
  | nil =>
    -- Nothing hidden is left behind the last leaf.
    have void : pending = [] := by
      by_contra some
      rw [append_nil] at ends
      have seen := ends _ (getLast?_eq_some_getLast some)
      rw [hidden _ (getLast_mem some)] at seen
      cases seen
    subst void
    obtain ⟨_,_,_⟩ := e
    simp_all [source]
  | cons t ts ih =>
    rw [zipIdx_cons,filter_cons]
    have more := fun u hu => last u (mem_cons_of_mem t hu)
    cases seen : t.isHidden with
    | true =>
      have := @ih pre (pending ++ [t]) e stream (by simpa using tokens) next
        (forall_mem_append.2 ⟨hidden,by simpa using seen⟩) (by simpa using ends) more
      simpa [Nat.add_assoc] using this
    | false =>
      have one := visit_eq stream tokens next hidden seen (last t (by simp))
      have := @ih (pre ++ pending ++ [t]) [] (e.visit (t,pre.length + pending.length))
        (by rw [one]) (by simpa using tokens) (by simp [one]; omega) (by simp) (by cases ts <;> simp_all) more
      simpa [one,Nat.add_assoc,source,String.join_append,String.append_assoc,String.join_cons] using this

theorem emit_source (text : String) : (shown (ofSource text)).foldl visit { stream := some (ofSource text) } =
    ⟨some (ofSource text),(ofSource text).length,text⟩ := by
  obtain ⟨front,q,eq,lexed⟩ := exists_scan_eq .first 0 text.toList
  have eq : ofSource text = front ++ [⟨.finish,"",q⟩] := eq
  have all := @emit_shown (ofSource text) [] [] (ofSource text) { stream := some (ofSource text) } rfl rfl rfl
    (by simp) (by simp [eq,isHidden]) ?_
  · simpa [source_ofSource,shown] using all
  · rw [eq]
    exact forall_mem_append.2 ⟨fun t ht finish => absurd finish (lexed t ht).kind_ne_finish,by simp⟩

/-- The end can be visited again. -/
theorem visit_finish {all : List Token} {text : String} {t : Token × Nat} (finish : t.1.kind = .finish) :
    (visit ⟨some all,all.length,text⟩ t).emitted = text := by
  simp [visit,hiddenUpTo,finish,source]

end Emitter

namespace Source

open Token

variable {text : String}

/-- A text is read from all of its tokens but the end. -/
theorem read_eq_ok {s : Surface.Source} {n : Nat} (h : Surface.Source.read text = .ok (s,n)) :
    ∃ front last, shown (ofSource text) = front ++ [last] ∧ n = front.length ∧
      (∀ t ∈ front, t.1.kind.isProper ∧ t.1.IsLexed) ∧ last.1.kind = .finish ∧ last.1.text = "" := by
  obtain ⟨rest,reach,read,rfl⟩ := Parser.read_eq_ok_iff.1 h
  have rules := Surface.Rules.placeless_depth (visible (ofSource text)).length
  obtain ⟨taken,all,proper⟩ := ((rules.source (rules.statement _)) _ _).2 _ (congrArg Prod.fst read)
  obtain ⟨-,t,more,rfl,finish⟩ := Surface.Rules.gives_source _ _ _ _ _ _ _ read
  obtain ⟨tokens,q,eq,lexed⟩ := exists_visible_eq text
  -- Only the last token is the end.
  obtain rfl : more = [] := by
    obtain rfl | ⟨full,u,rfl⟩ := eq_nil_or_concat more
    · rfl
    · have inside : tokens = taken ++ t :: full :=
        (append_inj' (eq.symm.trans (all.trans (by simp : _ = taken ++ t :: full ++ [u]))) rfl).1
      exact absurd finish (lexed t (by simp [inside])).kind_ne_finish
  obtain ⟨rfl,-⟩ := append_inj' (all.symm.trans eq) rfl
  obtain ⟨front,lasts,split,first,final⟩ := map_eq_append_iff.1 ((map_shown _).trans eq)
  obtain ⟨last,rfl,same⟩ := map_eq_singleton_iff.1 final
  refine ⟨front,last,split,?_,fun u hu => ?_,by rw [same],by rw [same]⟩
  · rw [eq,← first]
    simp
  · have mem : u.1 ∈ taken := first ▸ mem_map_of_mem hu
    exact ⟨proper _ mem,lexed _ mem⟩

theorem leaves_cases (text : String) : (∃ e, parse text = .error e ∧ leaves text = .error e) ∨
    ∃ s front last, parse text = .ok s ∧ leaves text = .ok (front ++ [last] ++ if s.isUnit then [] else [last]) ∧
      shown (ofSource text) = front ++ [last] ∧ (∀ t ∈ front, t.1.kind.isProper ∧ t.1.IsLexed) ∧
      last.1.kind = .finish ∧ last.1.text = "" := by
  have parsed : Surface.Source.parse text = Prod.fst <$> Surface.Source.read text := rfl
  unfold parse leaves
  rw [parsed]
  cases read : Surface.Source.read text with
  | error t =>
    dsimp only [Functor.map,Except.map]
    refine .inl ?_
    cases unexpected t text with
    | error e => exact ⟨e,rfl,rfl⟩
    | ok e => exact ⟨e,rfl,rfl⟩
  | ok result =>
    obtain ⟨s,n⟩ := result
    obtain ⟨front,last,split,rfl,lexed,finish,void⟩ := read_eq_ok read
    exact .inr ⟨s,front,last,rfl,by simp [split],split,lexed,finish,void⟩

end Source

/-- Writing the tree of a text with all its tokens gives the text again, whenever the text can be read. -/
theorem emitted_is_source (text : String) : Source.emitted text = (fun _ => text) <$> Source.parse text := by
  obtain ⟨e,read,void⟩ | ⟨s,front,last,read,leaves,split,-,finish,-⟩ := Source.leaves_cases text
  · rw [Source.emitted,void,read]
    rfl
  · have written := Emitter.emit_source text
    rw [Source.emitted,leaves,read]
    refine congrArg Except.ok ?_
    rw [Emitter.emit,List.foldl_append,← split,written]
    split
    · rfl
    · exact Emitter.visit_finish finish

end Confidential
