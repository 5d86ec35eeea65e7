import Confidential.Proofs.ExpressionTexts
import Confidential.Proofs.RawTrees

/-!
Tuples with empty places.
-/

namespace Confidential

open List Surface
open Confidential.Parser
open Token (sign)
open Elaboration (infoAt comma)

/-- A comma or a closing bracket comes next. -/
def EndsPlace (ts : List Token) : Prop :=
  ∃ s ∈ [",",")"], ∃ rest, ts = sign s :: rest

/-- An expression with its tree. -/
structure Element (cx : Elaboration) where
  expr : Expr
  node : Node
  built : expr.toNode cx false = .ok node

/-- An expression that is read again as it is printed. -/
structure Component (cx : Elaboration) (style : Style) extends Element cx where
  text : String
  tokens : List Token
  kept : ∀ (again : Elaboration) (e : Expr), e.still = expr.still → ∃ n, e.toNode again false = .ok n ∧ n.shape = node.shape
  printed : node.code style = .ok text
  cut : ∀ c ∈ [',',')'], ∀ cs, Token.cutUp (text.toList ++ c :: cs) = tokens ++ Token.cutUp (c :: cs)
  read : ∀ k rest, tokens.length ≤ k → EndsPlace rest → Reads (Rules.depth k).component (tokens ++ rest) (some expr.still) rest

namespace Component

open Element (expr node)

variable {cx : Elaboration} {style : Style}

variable {k : Nat} {ts : List Token}

/-- The trees of the components, with nothing where a place is empty. Empty brackets have no place. -/
def trees : List (Option (Element cx)) → List Node
  | [none] => []
  | cs => cs.map fun c => (c.map node).getD .omitted

/-! ### Elements -/

theorem length_comma {α : Type} (taken : Bool) (rest : List α) (more : rest ≠ []) :
    (comma taken rest).length = taken.toNat := by
  cases taken <;> simp [comma,more]

theorem exists_elements (taken : Bool) (cs : List (Option (Element cx))) :
    ∃ es, Expr.toElements cx taken (cs.map (Option.map expr)) = .ok es ∧
      (cs ≠ [] → es.length = (cs.countP Option.isSome + (cs.length - 1) + taken.toNat) / 2) := by
  induction cs generalizing taken with
  | nil => exact ⟨[],rfl,fun full => absurd rfl full⟩
  | cons c rest ih =>
    obtain ⟨es,made,length⟩ := ih (if c.isSome then taken else !taken)
    have commas (taken : Bool) := length_comma taken (rest.map (Option.map expr))
    cases c with
    | none =>
      refine ⟨comma taken (rest.map (Option.map expr)) ++ es,?_,fun _ => ?_⟩
      · simp only [Option.isSome_none,Bool.false_eq_true,if_false] at made
        simp only [map_cons,Option.map_none,Expr.toElements,made]
        rfl
      · by_cases more : rest = []
        · subst more
          obtain rfl : [] = es := Except.ok.inj made
          cases taken <;> simp [comma]
        · have pos := length_pos_iff.2 more
          rw [length_append,commas taken (by simpa using more),length more]
          cases taken <;> simp <;> omega
    | some c =>
      refine ⟨(if taken then [c.node] else []) ++ comma (!taken) (rest.map (Option.map expr)) ++ es,?_,fun _ => ?_⟩
      · simp only [Option.isSome_some,if_true] at made
        simp only [map_cons,Option.map_some,Expr.toElements,made,c.built]
        cases taken <;> rfl
      · by_cases more : rest = []
        · subst more
          obtain rfl : [] = es := Except.ok.inj made
          cases taken <;> simp [comma]
        · have pos := length_pos_iff.2 more
          rw [length_append,length_append,commas (!taken) (by simpa using more),length more]
          cases taken <;> simp <;> omega

theorem full_of_elements {cs : List (Option (Element cx))} (full : cs ≠ [])
    (made : Expr.toElements cx true (cs.map (Option.map expr)) = .ok (trees cs)) : none ∉ cs ∨ cs = [none] := by
  by_contra gap
  simp only [not_or,not_not] at gap
  obtain ⟨es,made',length⟩ := exists_elements true cs
  obtain rfl := Except.ok.inj (made.symm.trans made')
  have every : (trees cs).length = cs.length := by
    rw [trees,length_map]
    exact gap.2
  have fewer : cs.countP Option.isSome < cs.length := by
    refine lt_of_le_of_ne countP_le_length fun all => ?_
    simpa using countP_eq_length.1 all none gap.1
  have half := length full
  simp only [Bool.toNat_true] at half
  omega

theorem elements_full (xs : List (Element cx)) :
    Expr.toElements cx true ((xs.map some).map (Option.map expr)) = .ok (xs.map node) := by
  induction xs with
  | nil => rfl
  | cons c _ ih =>
    simp only [map_cons,Option.map_some,Expr.toElements,c.built,ih]
    rfl

theorem elements_again (again : Elaboration) {cs : List (Option Expr)} (xs : List (Component cx style))
    (same : cs.map (Option.map Expr.still) = xs.map fun d => some d.expr.still) :
    ∃ ns, Expr.toElements again true cs = .ok ns ∧ ns.map Node.shape = xs.map fun d => d.node.shape := by
  induction xs generalizing cs with
  | nil =>
    obtain rfl := map_eq_nil_iff.1 same
    exact ⟨[],rfl,rfl⟩
  | cons c _ ih =>
    obtain ⟨_,rest,rfl,here,more⟩ := map_eq_cons_iff.1 same
    obtain ⟨e,rfl,still⟩ := Option.map_eq_some_iff.1 here
    obtain ⟨n,built,shape⟩ := c.kept again e still
    obtain ⟨ns,made,shapes⟩ := ih more
    refine ⟨n :: ns,?_,by simp only [map_cons,shape,shapes]⟩
    simp only [Expr.toElements,built,made]
    rfl

theorem trees_full (xs : List (Element cx)) : trees (xs.map some) = xs.map node := by
  rw [trees,map_map]
  · rfl
  · intro eq
    cases xs <;> simp at eq

/-! ### Printed tuples -/

def written (c : Component cx style) (xs : List (Component cx style)) : String :=
  String.intercalate ", " ((c :: xs).map text)

def joined (c : Component cx style) (xs : List (Component cx style)) : List Token :=
  c.tokens ++ xs.flatMap fun d => sign "," :: d.tokens

theorem codes_full (c : Component cx style) (xs : List (Component cx style)) :
    Node.codes style ", " ((c :: xs).map (·.node)) = .ok (written c xs) := by
  have given (c : Component cx style) : c.node ≠ .omitted := by
    intro eq
    have role := (Expr.yields_toNode false c.expr _ c.built).2
    simp [eq,Node.role,Elaboration.expressions,Elaboration.values] at role
  have cons (c : Component cx style) (rest : List Node) : Node.codes style ", " (c.node :: rest) = do
      let more ← Node.codes style ", " rest
      return if rest.all Node.isOmitted then c.text else c.text ++ ", " ++ more := by
    have printed := c.printed
    have step : Node.codes style ", " (c.node :: rest) = do
        let t ← c.node.code style
        let more ← Node.codes style ", " rest
        return if rest.all Node.isOmitted then t else t ++ ", " ++ more := by
      cases eq : c.node with
      | omitted => exact absurd eq (given c)
      | plain => rw [eq] at printed; cases printed
      | _ => rfl
    rw [step,printed]
    rfl
  induction xs generalizing c with
  | nil =>
    rw [map_singleton,cons]
    rfl
  | cons d xs ih =>
    have filled : ((d :: xs).map (·.node)).all Node.isOmitted = false := by
      cases eq : d.node with
      | omitted => exact absurd eq (given d)
      | _ => simp [eq,Node.isOmitted]
    rw [map_cons,cons,ih,filled]
    simp [written,String.intercalate_cons_cons]

theorem cutUp_mark (mark : String) (alone : ∀ cs, Token.lexeme (mark.toList ++ cs) = (.fixed,mark.length)) (full : mark.toList ≠ [])
    (cs : List Char) : Token.cutUp (mark.toList ++ cs) = sign mark :: Token.cutUp cs :=
  Token.cutUp_append (t := sign mark) (alone cs) ⟨full,by simp [sign]⟩

theorem cutUp_comma (cs : List Char) : Token.cutUp (',' :: ' ' :: cs) = sign "," :: Token.cutUp cs := by
  have space : Token.cutUp (' ' :: cs) = Token.cutUp cs := Token.cutUp_spaces (u := [' ']) (by decide) cs
  have cut := cutUp_mark "," (fun _ => rfl) (by decide) (' ' :: cs)
  rwa [space] at cut

theorem cutUp_close (cs : List Char) : Token.cutUp (')' :: cs) = sign ")" :: Token.cutUp cs :=
  cutUp_mark ")" (fun _ => rfl) (by decide) cs

theorem cutUp_written (c : Component cx style) (xs : List (Component cx style)) (cs : List Char) :
    Token.cutUp ((written c xs).toList ++ ')' :: cs) = joined c xs ++ sign ")" :: Token.cutUp cs := by
  induction xs generalizing c with
  | nil => simp [written,joined,c.cut ')' (by decide),cutUp_close]
  | cons d xs ih =>
    have first := c.cut ',' (by decide) (' ' :: ((written d xs).toList ++ ')' :: cs))
    rw [cutUp_comma,ih d] at first
    simpa [written,joined,String.intercalate_cons_cons] using first

theorem reads_joined (c : Component cx style) (xs : List (Component cx style)) (short : (joined c xs).length ≤ k)
    (rest : List Token) : Reads (Rules.depth k).tuple (sign "(" :: (joined c xs ++ sign ")" :: rest))
      (.tuple default ((c :: xs).map fun d => some d.expr.still)) rest := by
  rw [joined,length_append] at short
  have each : ∀ d ∈ xs, d.tokens.length ≤ k := by
    intro d mem
    obtain ⟨ys,zs,rfl⟩ := append_of_mem mem
    simp only [flatMap_append,flatMap_cons,length_append,length_cons] at short
    omega
  have close : EndsPlace (sign ")" :: rest) := ⟨")",by decide,rest,rfl⟩
  have first : Reads (Rules.depth k).component (c.tokens ++ ((xs.flatMap fun d => sign "," :: d.tokens) ++ sign ")" :: rest))
      (some c.expr.still) ((xs.flatMap fun d => sign "," :: d.tokens) ++ sign ")" :: rest) := by
    cases xs with
    | nil => exact c.read k _ (by omega) close
    | cons => exact c.read k _ (by omega) ⟨",",by decide,_,rfl⟩
  have more : Reads (many (do let _ ← fixed ","; (Rules.depth k).component))
      ((xs.flatMap fun d => sign "," :: d.tokens) ++ sign ")" :: rest) (xs.map fun d => some d.expr.still) (sign ")" :: rest) := by
    refine reads_many xs (fun d mem more ends => ?_) (fun d _ more => ?_) close (fails_sign (by decide) rest).bind (by simp)
    · exact (reads_sign "," _).bind (d.read k more (each d mem) ends)
    · exact ⟨",",by decide,_,rfl⟩
  have inner : Reads (separated (Rules.depth k).component ",") (joined c xs ++ sign ")" :: rest)
      ((c :: xs).map fun d => some d.expr.still) (sign ")" :: rest) := by
    rw [joined,append_assoc]
    exact first.bind (more.bind (reads_pure _ _))
  exact (reads_sign "(" _).bind (inner.bind ((reads_sign ")" rest).bind (reads_pure _ _)))

theorem reads_piece {e : Expr} (read : Reads (Rules.depth k).tuple (sign "(" :: ts) e [.ofKind .finish ""]) :
    Reads (Rules.depth (k + 1)).piece (sign "SOL" :: sign "(" :: ts) (.expression default e) [.ofKind .finish ""] := by
  have closes := Token.closes_finish 0
  have operand : Reads ((Rules.depth k).operand .free) (sign "(" :: ts) e [.ofKind .finish ""] := by
    refine (Rules.Complete.goes_create _ (t := sign "(") (by decide) _).trans (Goes.trans (Fails.orElse ?_) (Reads.orElse read))
    exact (fails_sign (by decide) _).bind
  have expression : Reads (Rules.depth (k + 1)).expression (sign "(" :: ts) e [.ofKind .finish ""] :=
    (reads_peek _ _).bind ((reads_remaining _).bind (operand.bind
      ((Rules.Complete.reads_suffixed_end _ _ _ _ closes).bind (Rules.Complete.reads_climb_end _ _ _ closes))))
  refine (reads_sign "SOL" _).bind (Goes.trans (Fails.orElse (noType_sign (by decide) (by decide) (by decide) ts _)) ?_)
  exact expression.closely.bind ((reads_finish []).bind (reads_pure _ _))

theorem parse_tuple (text : String) {places : List (Option Expr)} (cut : Token.cutUp text.toList = sign "(" :: ts)
    (read : Reads (Rules.depth (ts.length + 1)).tuple (sign "(" :: ts) (.tuple default places) [.ofKind .finish ""]) :
    ∃ p q cs, Surface.Source.parse ("SOL " ++ text) = .ok (.expression p (.tuple q cs)) ∧ cs.map (Option.map Expr.still) = places := by
  obtain ⟨s,parsed,still⟩ := Source.parse_of_cutUp cut (reads_piece read)
  cases s with
  | expression p e =>
    cases e with
    | tuple q cs =>
      injection still with _ still
      injection still with _ still
      exact ⟨p,q,cs,parsed,(Expr.stillPlaces_eq cs).symm.trans still⟩
    | _ => simp [Surface.Source.still,Expr.still] at still
  | _ => simp [Surface.Source.still] at still

theorem piece_written (c : Component cx style) (xs : List (Component cx style)) (i : Info) :
    ∃ m, Source.piece ("(" ++ written c xs ++ ")") = .ok m ∧ m.shape = (Node.tuple i ((c :: xs).map (·.node))).shape := by
  have cut : Token.cutUp ("(" ++ written c xs ++ ")").toList = sign "(" :: (joined c xs ++ [sign ")",.ofKind .finish ""]) := by
    have opened := cutUp_mark "(" (fun _ => rfl) (by decide) ((written c xs).toList ++ [')'])
    rw [cutUp_written,Token.cutUp_nil] at opened
    simpa using opened
  obtain ⟨p,q,cs,parsed,same⟩ := parse_tuple _ cut (reads_joined c xs (by simp; omega) _)
  obtain ⟨ns,made,shapes⟩ := elements_again ⟨Text.lines _,_⟩ (c :: xs) same
  refine ⟨Elaboration.placedAt p (.tuple (infoAt q) ns),?_,?_⟩
  · rw [Source.piece_of_expression parsed,Expr.toNode,made]
    rfl
  · refine (Node.shape_withInfo (.tuple _ ns) _).trans (Node.shape_congr ?_ fun _ => rfl)
    rw [Node.parts,shapes,Node.parts,map_map]
    rfl

theorem piece_empty (i : Info) : ∃ m, Source.piece "()" = .ok m ∧ m.shape = (Node.tuple i []).shape := by
  have read (k : Nat) : Reads (Rules.depth k).tuple [sign "(",sign ")",.ofKind .finish ""] (.tuple default [none]) [.ofKind .finish ""] := by
    have nothing : Reads (Rules.depth k).component [sign ")",.ofKind .finish ""] none [sign ")",.ofKind .finish ""] :=
      (reads_peek _ _).bind (reads_pure _ _)
    have inner : Reads (separated (Rules.depth k).component ",") [sign ")",.ofKind .finish ""] [none] [sign ")",.ofKind .finish ""] :=
      nothing.bind ((reads_many_nil (fails_sign (by decide) _).bind).bind (reads_pure _ _))
    exact (reads_sign "(" _).bind (inner.bind ((reads_sign ")" _).bind (reads_pure _ _)))
  obtain ⟨p,q,cs,parsed,same⟩ := parse_tuple "()" (by decide +kernel) (read _)
  obtain rfl : cs = [none] := by
    obtain ⟨c,rfl,void⟩ := map_eq_singleton_iff.1 same
    rw [Option.map_eq_none_iff.1 void]
  refine ⟨Elaboration.placedAt p (.tuple (infoAt q) []),?_,?_⟩
  · rw [Source.piece_of_expression parsed,Expr.toNode]
    rfl
  · exact (Node.shape_withInfo (.tuple _ []) _).trans (Node.shape_congr rfl fun _ => rfl)

/-- A tuple has the trees of its components as its elements, each in its place, if and only if no place
is empty or the brackets are empty. Such a tuple is read again as it is printed, if its components are. -/
theorem kept_iff (cs : List (Option (Element cx))) (full : cs ≠ []) (p : Pos) (top : Bool) :
    ∃ es, (Expr.tuple p (cs.map (Option.map expr))).toNode cx top = .ok (.tuple (infoAt p) es) ∧
      (es = trees cs ↔ none ∉ cs ∨ cs = [none]) ∧
      ∀ (style : Style) (xs : List (Component cx style)), cs = (xs.map (·.toElement)).map some ∨ cs = [none] →
        ∃ text m, (Node.tuple (infoAt p) es).code style = .ok text ∧ Source.piece text = .ok m ∧
          m.shape = (Node.tuple (infoAt p) es).shape := by
  obtain ⟨es,made,-⟩ := exists_elements true cs
  have built : (Expr.tuple p (cs.map (Option.map expr))).toNode cx top = .ok (.tuple (infoAt p) es) := by
    rw [Expr.toNode,made]
    rfl
  refine ⟨es,built,⟨?_,?_⟩,fun style xs shape => ?_⟩
  · rintro rfl
    exact full_of_elements full made
  · rintro (given | rfl)
    · obtain ⟨xs,rfl⟩ : cs ∈ Set.range (List.map some) := by
        rw [Set.range_list_map]
        exact fun c mem => Option.ne_none_iff_exists.1 fun eq => given (eq ▸ mem)
      rw [trees_full]
      exact Except.ok.inj (made.symm.trans (elements_full xs))
    · exact (Except.ok.inj made).symm
  · obtain rfl | rfl := shape
    · have all := elements_full (xs.map (·.toElement))
      rw [map_map (g := node)] at all
      obtain rfl := Except.ok.inj (made.symm.trans all)
      cases xs with
      | nil => exact absurd rfl full
      | cons c xs =>
        obtain ⟨m,again,shape⟩ := piece_written c xs (infoAt p)
        refine ⟨_,m,?_,again,shape⟩
        change (do return "(" ++ (← Node.codes style ", " ((c :: xs).map fun d : Component cx style => d.node)) ++ ")") = _
        rw [codes_full]
        rfl
    · obtain rfl := Except.ok.inj made
      obtain ⟨m,again,shape⟩ := piece_empty (infoAt p)
      exact ⟨"()",m,rfl,again,shape⟩

/-- A name, a number or an operation, if what is printed for it is cut up into its tokens. -/
def ofFitting (e : Expr) (n : Node) (text : String) (fits : e.fits = true) (built : e.toNode cx false = .ok n)
    (printed : n.code style = .ok text)
    (cut : ∀ c ∈ [',',')'], ∀ cs, Token.cutUp (text.toList ++ c :: cs) = e.tokens ++ Token.cutUp (c :: cs)) : Component cx style where
  expr := e
  node := n
  text := text
  tokens := e.tokens
  built := built
  kept again _ same := (Expr.toNode_of_still again cx fits same false).exists_ok built
  printed := printed
  cut := cut
  read k rest enough ends := by
    obtain ⟨s,hs,rest,rfl⟩ := ends
    simp only [mem_cons,not_mem_nil,or_false] at hs
    refine (Rules.complete_depth k).reads_component fits enough ?_
    obtain rfl | rfl := hs <;> exact Token.closes_sign _ (by decide) 0 rest

def letter : Component ⟨[],[]⟩ {} :=
  ofFitting (.name ⟨default,"a"⟩) (.name (infoAt default) (.identifier (infoAt default) "a")) "a" rfl
    rfl rfl fun c hc cs => by
    have word : (Token.ofKind .name "a").IsWord := ⟨⟨'a',[],by decide,by decide⟩,by decide,by decide +kernel⟩
    simp only [mem_cons,not_mem_nil,or_false] at hc
    refine Token.cutUp_append (word.clear ⟨?_,?_⟩ fun eq => absurd eq (by decide)) word.written
    · obtain rfl | rfl := hc <;> simp [Token.isNamePart]
    · obtain rfl | rfl := hc <;> simp

theorem kept_pair_not_gap :
    (∃ es, (Expr.tuple default [some letter.expr,some letter.expr]).toNode ⟨[],[]⟩ false = .ok (.tuple (infoAt default) es) ∧
      es = [letter.node,letter.node] ∧ ∃ text m, (Node.tuple (infoAt default) es).code {} = .ok text ∧
        Source.piece text = .ok m ∧ m.shape = (Node.tuple (infoAt default) es).shape) ∧
    ∃ es, (Expr.tuple default [none,some letter.expr]).toNode ⟨[],[]⟩ false = .ok (.tuple (infoAt default) es) ∧
      es ≠ [.omitted,letter.node] := by
  obtain ⟨es,made,iff,again⟩ := kept_iff [some letter.toElement,some letter.toElement] (by simp) default false
  obtain ⟨es',made',iff',-⟩ := kept_iff [none,some letter.toElement] (by simp) default false
  exact ⟨⟨es,made,iff.2 (by simp),again {} [letter,letter] (.inl rfl)⟩,es',made',fun eq => absurd (iff'.1 eq) (by simp)⟩

end Component
end Confidential
