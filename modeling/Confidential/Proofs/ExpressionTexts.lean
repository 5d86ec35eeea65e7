import Confidential.Proofs.Elaborated
import Confidential.Proofs.PlacelessSources
import Confidential.Proofs.Spelling

/-!
Texts that are read as an expression on its own: a text that is cut up into the tokens of an
expression that fits is read as this expression.
-/

namespace Confidential

namespace Surface

open Token (ofKind)

def Expr.ofTokens (ts : List Token) : Except Token Expr :=
  Parser.run (do
    let e ← (Rules.depth ts.length).expression
    Parser.finish
    return e) ts

def Expr.parse (text : String) : Except Token Expr :=
  Expr.ofTokens (Token.visible (Token.ofSource text))

end Surface

def Source.expression (text : String) : Outcome Node :=
  match Surface.Expr.parse text with
  | .ok e => e.toNode ⟨Text.lines text,text.toList⟩ false
  | .error t => do .error (← Source.unexpected t text)

theorem Token.closes_finish (k : Nat) : Token.Closes k [.ofKind .finish ""] :=
  ⟨_,[],rfl,by decide,by simp [Token.level?,Token.ofKind]⟩

namespace Parser

theorem reads_finish (rest : List Token) : Reads finish (.ofKind .finish "" :: rest) () (.ofKind .finish "" :: rest) :=
  (reads_peek _ _).bind (reads_pure _ _)

theorem fails_finish {t : Token} (h : t.kind ≠ .finish) (rest : List Token) : Fails finish (t :: rest) := by
  refine (reads_peek _ _).fails_bind ?_
  rw [if_neg (by simpa using h)]
  exact fails_fail _

theorem Reads.run {α : Type} {p : Parser α} {ts rest : List Token} {a : α} (h : Reads p ts a rest) : p.run ts = .ok a := by
  obtain ⟨reach,eq⟩ := h (.start ts.length)
  exact run_eq_ok_iff.2 ⟨rest,reach,eq⟩

end Parser

namespace Surface

open Token (ofKind)
open Confidential.Parser

variable {e : Expr}

theorem Expr.ofTokens_tokens (fits : e.fits) : Expr.ofTokens (e.tokens ++ [ofKind .finish ""]) = .ok e.still := by
  refine Reads.run (?_ : Reads _ _ _ [ofKind .finish ""])
  have read := (Rules.complete_depth (e.tokens ++ [ofKind .finish ""]).length).reads_expression fits (by simp) (Token.closes_finish 0)
  exact read.bind ((reads_finish []).bind (reads_pure _ _))

theorem Expr.parse_of_cutUp {text : String} (cut : Token.cutUp text.toList = e.tokens ++ [ofKind .finish ""])
    (fits : e.fits) : ∃ e', Expr.parse text = .ok e' ∧ e'.still = e.still := by
  have read := Expr.ofTokens_tokens fits
  rw [← cut] at read
  unfold Expr.parse Expr.ofTokens
  rw [Expr.ofTokens,Token.cutUp,List.length_map] at read
  exact ((Rules.placeless_depth _).expression.bind fun _ => Alike.finish.bind fun _ => .pure rfl : Unplaced Expr.still _).run read

end Surface

open Surface

theorem Source.expression_of_cutUp {text : String} {e : Expr} {n : Node} {cx : Elaboration}
    (cut : Token.cutUp text.toList = e.tokens ++ [.ofKind .finish ""]) (fits : e.fits) (node : e.toNode cx false = .ok n) :
    ∃ m, Source.expression text = .ok m ∧ m.shape = n.shape := by
  obtain ⟨e',read,still⟩ := Expr.parse_of_cutUp cut fits
  unfold Source.expression
  rw [read]
  exact (Expr.toNode_of_still _ cx fits still false).exists_ok node

/-! ### Groups -/

namespace Node

/-- What is between the brackets of a tuple with one element. -/
def ungrouped : Node → Node
  | .tuple _ [x] => x
  | n => n

/-- The tree without numbers and places, and without the tuples of one element. -/
def bare (n : Node) : Node :=
  ((n.withParts (n.parts.attach.map fun ⟨c,_⟩ => c.bare)).withInfo {}).ungrouped
termination_by sizeOf n
decreasing_by exact sizeOf_lt_part (by assumption)

theorem bare_eq (n : Node) : n.bare = ((n.withParts (n.parts.map bare)).withInfo {}).ungrouped := by
  rw [bare]
  simp

theorem bare_shape (n : Node) : n.shape.bare = n.bare := by
  induction n with
  | step n ih =>
    have parts : n.shape.parts.map bare = n.parts.map bare := by
      rw [parts_shape,List.map_map]
      exact List.map_congr_left ih
    rw [bare_eq,parts,bare_eq n,shape_eq,withParts_withInfo,withInfo_withInfo,withParts_withParts (List.length_map _)]

theorem bare_congr {n m : Node} (h : n.shape = m.shape) : n.bare = m.bare := by
  rw [← bare_shape n,h,bare_shape]

end Node

/-! ### Pieces of syntax -/

namespace Surface

open Token (sign ofKind)
open Confidential.Parser

variable {s : String}

def NoType (ts : List Token) : Prop :=
  ∀ n, Fails (do let t ← (Rules.depth n).type; finish; return Source.type default t) ts

theorem Rules.fails_typeBase (r : Rules) {t : Token} (name : t.kind ≠ .name) (type : Rules.isElementary t = false)
    (function : t.isFixed "function" = false) (mapping : t.isFixed "mapping" = false) (rest : List Token) :
    Fails r.typeBase (t :: rest) := by
  refine Fails.or ?_ (Fails.or ?_ (Fails.or ?_ ?_))
  · exact (fails_satisfy _ type rest).bind.bind
  · exact (fails_fixed function rest).bind
  · exact (fails_kind name rest).bind.bind
  · exact (fails_fixed mapping rest).bind

theorem noType_sign (type : Rules.elementaryWords.contains s = false) (function : s ≠ "function")
    (mapping : s ≠ "mapping") (rest : List Token) : NoType (sign s :: rest) := by
  intro n
  cases n with
  | zero => exact (fails_fail _).bind
  | succ =>
    refine Fails.bind ((reads_here _ _).fails_bind (Fails.bind ?_))
    refine Rules.fails_typeBase _ (t := sign s) (by simp [sign]) ?_ (beq_eq_false_iff_ne.2 function)
      (beq_eq_false_iff_ne.2 mapping) rest
    exact List.contains_eq_any_beq.symm.trans type

theorem noType_name (name : String) (dot : s ≠ ".") (square : s ≠ "[") (rest : List Token) :
    NoType (ofKind .name name :: sign s :: rest) := by
  intro n
  cases n with
  | zero => exact (fails_fail _).bind
  | succ n =>
    have path : Reads Rules.path (ofKind .name name :: sign s :: rest) [⟨default,name⟩] (sign s :: rest) :=
      (reads_ofKind .name name _).bind ((reads_many_nil (fails_sign dot rest).bind).bind (reads_pure _ _))
    have base : Reads (Rules.depth n).typeBase (ofKind .name name :: sign s :: rest) (.path [⟨default,name⟩]) (sign s :: rest) := by
      refine Goes.trans (Fails.orElse ?_) (Goes.trans (Fails.orElse ?_) (Reads.orElse (path.bind (reads_pure _ _))))
      · exact (fails_satisfy Rules.isElementary (by simp [Rules.isElementary,ofKind,Token.isFixed]) _).bind.bind
      · exact (fails_fixed (Token.isFixed_of_kind (by simp [ofKind]) _) _).bind
    have sizes : Reads (many (Rules.depth n).arraySize) (sign s :: rest) [] (sign s :: rest) :=
      reads_many_nil (fails_sign square rest).bind
    have type : Reads (Rules.depth (n + 1)).type (ofKind .name name :: sign s :: rest) (.path [⟨default,name⟩]) (sign s :: rest) :=
      (reads_here _ _).bind (base.bind (sizes.bind (reads_pure _ _)))
    exact type.fails_bind (fails_finish (by simp [sign]) rest).bind

theorem reads_piece_expression {e : Expr} (fits : e.fits) (noType : NoType (e.tokens ++ [ofKind .finish ""])) {n : Nat}
    (deep : e.tokens.length + 1 < n) : Reads (Rules.depth n).piece (sign "SOL" :: (e.tokens ++ [ofKind .finish ""]))
      (.expression default e.still) [ofKind .finish ""] := by
  have read := ((Rules.complete_depth n).reads_expression fits (by omega) (Token.closes_finish 0)).closely
  refine (reads_sign "SOL" _).bind (Goes.trans (Fails.orElse (noType _)) ?_)
  exact read.bind ((reads_finish []).bind (reads_pure _ _))

end Surface

variable {text : String} {e : Expr}

theorem Token.cutUp_marked (text : String) : cutUp ("SOL " ++ text).toList = sign "SOL" :: cutUp text.toList := by
  have word : (sign "SOL").IsWord := ⟨⟨'S',['O','L'],by decide,by decide⟩,by decide,by decide⟩
  have clear : Clear (sign "SOL") (' ' :: text.toList) :=
    word.clear ⟨by simp [isNamePart],by simp⟩ fun eq => absurd eq (by decide)
  have space : cutUp (' ' :: text.toList) = cutUp text.toList := cutUp_spaces (u := [' ']) (by decide) text.toList
  have cut := cutUp_append clear word.written
  rw [space] at cut
  rw [String.toList_append]
  exact cut

theorem Source.parse_of_cutUp {ts rest : List Token} {s : Surface.Source} (cut : Token.cutUp text.toList = ts)
    (read : Parser.Reads (Rules.depth (ts.length + 1)).piece (.sign "SOL" :: ts) s rest) :
    ∃ s', Surface.Source.parse ("SOL " ++ text) = .ok s' ∧ s'.still = s := by
  have marked : (Token.visible (Token.ofSource ("SOL " ++ text))).map Token.still = .sign "SOL" :: ts :=
    (Token.cutUp_marked text).trans (congrArg _ cut)
  refine Source.ofTokens_of_still ?_
  rw [← List.length_map (f := Token.still),marked]
  exact read.run

theorem Source.piece_of_expression {p : Pos} (read : Surface.Source.parse ("SOL " ++ text) = .ok (.expression p e)) :
    Source.piece text = Elaboration.placedAt p <$> e.toNode ⟨Text.lines text,("SOL " ++ text).toList⟩ false := by
  unfold Source.piece
  dsimp only
  rw [Source.parse,read]
  change (Surface.Source.toNode _ _ >>= _) = _
  rw [Surface.Source.toNode]
  cases e.toNode ⟨Text.lines text,("SOL " ++ text).toList⟩ false <;> rfl

theorem Source.piece_of_cutUp {n : Node} {cx : Elaboration}
    (cut : Token.cutUp text.toList = e.tokens ++ [.ofKind .finish ""]) (fits : e.fits)
    (noType : NoType (e.tokens ++ [.ofKind .finish ""])) (node : e.toNode cx false = .ok n) :
    ∃ m, Source.piece text = .ok m ∧ m.shape = n.shape := by
  obtain ⟨s,read,still⟩ := Source.parse_of_cutUp cut (reads_piece_expression fits noType (by simp))
  obtain ⟨p,e',rfl,same⟩ : ∃ p e', s = .expression p e' ∧ e'.still = e.still := by
    cases s with
    | expression p e' => exact ⟨p,e',rfl,by injection still⟩
    | _ => simp [Surface.Source.still] at still
  obtain ⟨m,found,shape⟩ := (Expr.toNode_of_still ⟨Text.lines text,("SOL " ++ text).toList⟩ cx fits same false).exists_ok node
  refine ⟨Elaboration.placedAt p m,?_,(Node.shape_withInfo m _).trans shape⟩
  rw [Source.piece_of_expression read,found]
  rfl

end Confidential
