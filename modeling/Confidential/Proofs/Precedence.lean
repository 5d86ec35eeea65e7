import Confidential.Proofs.ExpressionTexts

/-!
Operator trees and how they are written: with single spaces between the words, and in brackets only where an
operand binds less tightly than its place asks.
-/

namespace Confidential

open List

open Surface (Expr)
open Surface.Rules (levelOf prefixLevel)

/-- A word that is read as a name. -/
structure Identifier where
  text : String
  isName : Token.lexeme text.toList = (.name,text.length)

inductive PrefixSign where
  | plus
  | minus
  | not
  | complement

namespace PrefixSign

def text : PrefixSign → String
  | .plus => "+"
  | .minus => "-"
  | .not => "!"
  | .complement => "~"

def operator : PrefixSign → Operator
  | .plus => .positive
  | .minus => .negative
  | .not => .negation
  | .complement => .bitNot

end PrefixSign

/-- The signs between operands in families, the one that binds tightest first. -/
def families : List (Bool × List String) :=
  [(true,["**"]),
   (false,["*","/","%"]),
   (false,["+","-"]),
   (false,["<<",">>"]),
   (false,["&"]),
   (false,["^"]),
   (false,["|"]),
   (false,["<",">","<=",">="]),
   (false,["==","!="]),
   (false,["&&"]),
   (false,["||"]),
   (true,["?"]),
   (false,["=","|=","^=","&=","<<=",">>=","+=","-=","*=","/=","%="])]

/-- The signs that stand between two operands, those of assignments included. -/
structure InfixSign where
  text : String
  family : Fin families.length
  listed : text ∈ (families.get family).2
  joins : text ≠ "?"

namespace InfixSign

def toRight (s : InfixSign) : Bool :=
  (families.get s.family).1

def assigns (s : InfixSign) : Bool :=
  s.family.val == 12

theorem levelOf_text (s : InfixSign) : levelOf s.text = some (13 - s.family.val,s.toRight) := by
  have all : ∀ k : Fin families.length, ∀ text ∈ (families.get k).2, levelOf text = some (13 - k.val,(families.get k).1) := by
    decide +kernel
  exact all s.family s.text s.listed

def operator (s : InfixSign) : Operator :=
  (Operator.ofName? s.text).getD default

end InfixSign

inductive OperatorTree where
  | name (name : Identifier)
  | signed (sign : PrefixSign) (operand : OperatorTree)
  | joined (sign : InfixSign) (left right : OperatorTree)
  | choice (condition yes no : OperatorTree)

namespace OperatorTree

variable {needed : Bool} {e : Expr} {t : OperatorTree} {s : String}

/-- How loosely a tree binds: names not at all, then signs before operands, then the families. -/
def looseness : OperatorTree → Nat
  | .name _ => 0
  | .signed _ _ => 1
  | .joined s _ _ => s.family + 2
  | .choice _ _ _ => 13

def needsSigned (t : OperatorTree) : Bool :=
  1 < t.looseness

def needsLeft (s : InfixSign) (t : OperatorTree) : Bool :=
  s.family + 2 < t.looseness || s.family + 2 == t.looseness && s.toRight

def needsRight (s : InfixSign) (t : OperatorTree) : Bool :=
  s.family + 2 < t.looseness || s.family + 2 == t.looseness && !s.toRight

/-- Choices group to the right, so only the condition of a choice needs brackets if it is a choice. -/
def needsCondition (t : OperatorTree) : Bool :=
  13 ≤ t.looseness

def needsOtherwise (t : OperatorTree) : Bool :=
  13 < t.looseness

def enclosed (needed : Bool) (words : List String) : List String :=
  if needed then "(" :: words ++ [")"] else words

/-- The words of a tree. What stands between the signs of a choice needs no brackets. -/
def words : OperatorTree → List String
  | .name n => [n.text]
  | .signed s t => s.text :: enclosed t.needsSigned t.words
  | .joined s l r => enclosed (l.needsLeft s) l.words ++ s.text :: enclosed (r.needsRight s) r.words
  | .choice c y n => enclosed c.needsCondition c.words ++ "?" :: y.words ++ ":" :: enclosed n.needsOtherwise n.words

def text (t : OperatorTree) : String :=
  String.intercalate " " t.words

def grouped (needed : Bool) (e : Expr) : Expr :=
  if needed then .tuple default [some e] else e

/-- The tree as concrete syntax without places. The brackets that are written make tuples of one
element. -/
def expr : OperatorTree → Expr
  | .name n => .name ⟨default,n.text⟩
  | .signed s t => .unary default ⟨default,s.text⟩ (grouped t.needsSigned t.expr)
  | .joined s l r =>
    if s.assigns then .assign default ⟨default,s.text⟩ (grouped (l.needsLeft s) l.expr) (grouped (r.needsRight s) r.expr)
    else .binary default ⟨default,s.text⟩ (grouped (l.needsLeft s) l.expr) (grouped (r.needsRight s) r.expr)
  | .choice c y n => .conditional default (grouped c.needsCondition c.expr) y.expr (grouped n.needsOtherwise n.expr)

def operation (op : Operator) (operands : List Node) : Node :=
  .call {} (.builtin {} op) (.arguments {} operands false) false

def node : OperatorTree → Node
  | .name n => .name {} (.identifier {} n.text)
  | .signed s t => operation s.operator [t.node]
  | .joined s l r => operation s.operator [l.node,r.node]
  | .choice c y n => operation .conditional [c.node,y.node,n.node]

/-- No names that are kept for generated code, and no assignments. -/
def isValue : OperatorTree → Bool
  | .name n => !Elaboration.isReserved n.text
  | .signed _ t => t.isValue
  | .joined s l r => !s.assigns && l.isValue && r.isValue
  | .choice c y n => c.isValue && y.isValue && n.isValue

def isName : OperatorTree → Bool
  | .name _ => true
  | _ => false

/-! ### Levels -/

theorem level_expr (t : OperatorTree) : t.expr.level + t.looseness = prefixLevel + 1 := by
  cases t with
  | name | signed | choice => rfl
  | joined s =>
    have last := s.family.isLt
    rw [expr,looseness]
    split
    · next h =>
      have : s.family.val = 12 := beq_iff_eq.1 h
      rw [Expr.level,this]
      rfl
    · rw [Expr.level,s.levelOf_text]
      simp [prefixLevel,families] at last ⊢
      omega

theorem fits_grouped (h : e.fits) : (grouped needed e).fits := by
  cases needed with
  | false => exact h
  | true => simpa [grouped,Expr.fits] using h

theorem le_level_grouped {k : Nat} (le : k ≤ prefixLevel + 1)
    (enough : needed = false → k + t.looseness ≤ prefixLevel + 1) : k ≤ (grouped needed t.expr).level := by
  cases needed with
  | true => exact le
  | false =>
    have := t.level_expr
    have := enough rfl
    simp only [grouped,Bool.false_eq_true,if_false]
    omega

theorem fits_expr (t : OperatorTree) : t.expr.fits := by
  induction t with
  | name => rfl
  | signed s t ih =>
    have tight : prefixLevel ≤ (grouped t.needsSigned t.expr).level := by
      refine le_level_grouped (Nat.le_succ prefixLevel) fun needed => ?_
      simp [needsSigned] at needed
      omega
    simp only [expr,Expr.fits,fits_grouped ih,decide_eq_true tight,Bool.and_true]
    cases s <;> decide
  | joined s l r ihl ihr =>
    have last : s.family.val < 13 := s.family.isLt
    have left : (if s.toRight then 13 - s.family.val + 1 else 13 - s.family.val) ≤ (grouped (l.needsLeft s) l.expr).level := by
      refine le_level_grouped (by simp [prefixLevel]; split <;> omega) fun needed => ?_
      simp [needsLeft] at needed
      cases h : s.toRight <;> simp [h,prefixLevel] at needed ⊢ <;> omega
    have right : (if s.toRight then 13 - s.family.val else 13 - s.family.val + 1) ≤ (grouped (r.needsRight s) r.expr).level := by
      refine le_level_grouped (by simp [prefixLevel]; split <;> omega) fun needed => ?_
      simp [needsRight] at needed
      cases h : s.toRight <;> simp [h,prefixLevel] at needed ⊢ <;> omega
    have known := s.levelOf_text
    obtain ⟨-,-,toRight,ask,-⟩ := Surface.Rules.levelOf_bounds known
    rw [expr]
    split
    · next assigns =>
      have family : s.family.val = 12 := beq_iff_eq.1 assigns
      have toLeft : s.toRight = false := by
        cases h : s.toRight with
        | false => rfl
        | true => exact absurd (toRight.1 h) (by omega)
      rw [family,toLeft] at left right known
      simp only [Expr.fits,known,fits_grouped ihl,fits_grouped ihr,Bool.and_eq_true,decide_eq_true_eq]
      exact ⟨⟨by decide,left⟩,right⟩
    · next joins =>
      have level : 2 < 13 - s.family.val := by
        have one : s.family.val ≠ 12 := fun h => joins (beq_iff_eq.2 h)
        have two : 13 - s.family.val ≠ 2 := fun h => s.joins (ask.1 h)
        omega
      have first : Expr.firstLevel s.text = if s.toRight then 13 - s.family.val + 1 else 13 - s.family.val := by
        rw [Expr.firstLevel,known]
        rfl
      simp only [Expr.fits,Expr.level,Expr.lastLevel,known,first,fits_grouped ihl,fits_grouped ihr,Option.map_some,
        Option.getD_some,Bool.and_eq_true,decide_eq_true_eq]
      exact ⟨⟨⟨⟨trivial,trivial⟩,level⟩,left⟩,right⟩
  | choice c y n ihc ihy ihn =>
    have first : 3 ≤ (grouped c.needsCondition c.expr).level := by
      refine le_level_grouped (by decide) fun needed => ?_
      simp [needsCondition,prefixLevel] at needed ⊢
      omega
    have last : 2 ≤ (grouped n.needsOtherwise n.expr).level := by
      refine le_level_grouped (by decide) fun needed => ?_
      simp [needsOtherwise,prefixLevel] at needed ⊢
      omega
    simp only [expr,Expr.fits,fits_grouped ihc,fits_grouped ihn,ihy,decide_eq_true first,decide_eq_true last,Bool.and_self]

/-! ### The words and the tokens -/

def Spaced (ts : List Token) : Prop :=
  ∀ t ∈ ts, t.IsSpaced ∧ t.still = t

theorem spaced_sign (h : s ∈ Token.signs) : Spaced [.sign s] := by
  intro t ht
  obtain rfl := mem_singleton.1 ht
  exact ⟨.sign h,rfl⟩

theorem Spaced.append {ts us : List Token} (ht : Spaced ts) (hu : Spaced us) : Spaced (ts ++ us) := by
  intro t h
  exact (mem_append.1 h).elim (ht t) (hu t)

theorem Spaced.grouped (needed : Bool) (h : Spaced e.tokens) : Spaced (grouped needed e).tokens := by
  cases needed with
  | false => exact h
  | true =>
    have tokens : (OperatorTree.grouped true e).tokens = [.sign "("] ++ e.tokens ++ [.sign ")"] := by
      simp [OperatorTree.grouped,Expr.tokens]
    rw [tokens]
    exact ((spaced_sign (by decide)).append h).append (spaced_sign (by decide))

theorem texts_grouped (needed : Bool) {ws : List String} (h : e.tokens.map (·.text) = ws) :
    (grouped needed e).tokens.map (·.text) = enclosed needed ws := by
  subst h
  cases needed with
  | false => rfl
  | true => simp [grouped,enclosed,Expr.tokens,Token.sign]

theorem mem_signs_of_levelOf {l : Nat} {toRight : Bool} (h : levelOf s = some (l,toRight)) : s ∈ Token.signs := by
  have all : ∀ x ∈ Surface.Rules.levels, ∀ s ∈ x.2.2, s ∈ Token.signs := by decide +kernel
  obtain ⟨x,found,-⟩ := Option.map_eq_some_iff.1 h
  exact all x (mem_of_find?_eq_some found) s (by simpa using find?_some found)

theorem spaced_expr (t : OperatorTree) : Spaced t.expr.tokens := by
  induction t with
  | name n =>
    intro u hu
    rw [expr,Expr.tokens,mem_singleton] at hu
    subst hu
    have word := Token.isWord_of_lexeme n.isName (.inl rfl)
    rw [take_of_length_le String.length_toList.le,String.ofList_toList] at word
    refine ⟨word.spaced fun address => ?_,rfl⟩
    have text : n.text = "address" := address
    have kind := congrArg Prod.fst n.isName
    rw [text] at kind
    exact absurd kind (by decide +kernel)
  | signed s t ih =>
    have sign : Spaced [.sign s.text] := spaced_sign (by cases s <;> decide)
    exact sign.append (ih.grouped _)
  | joined s l r ihl ihr =>
    have sign : Spaced [.sign s.text] := spaced_sign (mem_signs_of_levelOf s.levelOf_text)
    have tokens : (joined s l r).expr.tokens = (grouped (l.needsLeft s) l.expr).tokens ++
        ([.sign s.text] ++ (grouped (r.needsRight s) r.expr).tokens) := by
      rw [expr]
      split <;> simp [Expr.tokens]
    rw [tokens]
    exact (ihl.grouped _).append (sign.append (ihr.grouped _))
  | choice c y n ihc ihy ihn =>
    have tokens : (choice c y n).expr.tokens = (grouped c.needsCondition c.expr).tokens ++ ([.sign "?"] ++ (y.expr.tokens ++
        ([.sign ":"] ++ (grouped n.needsOtherwise n.expr).tokens))) := by
      simp [expr,Expr.tokens]
    rw [tokens]
    exact (ihc.grouped _).append ((spaced_sign (by decide)).append (ihy.append ((spaced_sign (by decide)).append (ihn.grouped _))))

theorem texts_expr (t : OperatorTree) : t.expr.tokens.map (·.text) = t.words := by
  induction t with
  | name => rfl
  | signed s t ih => simp [expr,words,Expr.tokens,Token.sign,texts_grouped _ ih]
  | joined s l r ihl ihr =>
    rw [expr,words]
    split <;> simp [Expr.tokens,Token.sign,texts_grouped _ ihl,texts_grouped _ ihr]
  | choice c y n ihc ihy ihn =>
    simp [expr,words,Expr.tokens,Token.sign,texts_grouped _ ihc,ihy,texts_grouped _ ihn]

theorem cutUp_text (t : OperatorTree) : Token.cutUp t.text.toList = t.expr.tokens ++ [.ofKind .finish ""] := by
  have spaced := t.spaced_expr
  have cut := Token.cutUp_intercalate fun u hu => (spaced u hu).1
  rw [texts_expr,map_congr_left fun u hu => (spaced u hu).2,map_id'] at cut
  exact cut

/-! ### The tree that is read -/

theorem still_grouped (needed : Bool) (h : e.still = e) : (grouped needed e).still = grouped needed e := by
  cases needed with
  | false => exact h
  | true => simp [grouped,Expr.still,Expr.stillPlaces,h]

theorem still_expr (t : OperatorTree) : t.expr.still = t.expr := by
  induction t with
  | name => rfl
  | signed s t ih => simp [expr,Expr.still,Surface.Word.still,still_grouped _ ih]
  | joined s l r ihl ihr =>
    rw [expr]
    split <;> simp [Expr.still,Surface.Word.still,still_grouped _ ihl,still_grouped _ ihr]
  | choice c y n ihc ihy ihn => simp [expr,Expr.still,still_grouped _ ihc,ihy,still_grouped _ ihn]

theorem noType_operand (needed : Bool) (h : t.isName = false → ∀ rest, Surface.NoType (t.expr.tokens ++ rest))
    (sign : (Token.sign s).opensSuffix = false) (rest : List Token) :
    Surface.NoType ((grouped needed t.expr).tokens ++ .sign s :: rest) := by
  cases needed with
  | true => exact Surface.noType_sign (s := "(") (by decide) (by decide) (by decide) _
  | false =>
    cases t with
    | name n =>
      refine Surface.noType_name n.text ?_ ?_ rest
      · rintro rfl
        exact absurd sign (by decide)
      · rintro rfl
        exact absurd sign (by decide)
    | signed | joined | choice => exact h rfl _

theorem noType_tokens (h : t.isName = false) (rest : List Token) : Surface.NoType (t.expr.tokens ++ rest) := by
  induction t generalizing rest with
  | name => simp [isName] at h
  | signed s =>
    refine Surface.noType_sign ?_ ?_ ?_ _ <;> cases s <;> decide
  | joined s l r ihl =>
    have tokens : (joined s l r).expr.tokens ++ rest = (grouped (l.needsLeft s) l.expr).tokens ++
        .sign s.text :: ((grouped (r.needsRight s) r.expr).tokens ++ rest) := by
      rw [expr]
      split <;> simp [Expr.tokens]
    rw [tokens]
    exact noType_operand _ ihl (Surface.Rules.levelOf_bounds s.levelOf_text).2.2.2.2 _
  | choice c y n ihc =>
    have tokens : (choice c y n).expr.tokens ++ rest = (grouped c.needsCondition c.expr).tokens ++
        .sign "?" :: (y.expr.tokens ++ .sign ":" :: ((grouped n.needsOtherwise n.expr).tokens ++ rest)) := by
      simp [expr,Expr.tokens]
    rw [tokens]
    exact noType_operand _ ihc (by decide) _

theorem named_operator (s : InfixSign) (h : s.assigns = false) : Operator.named s.text = .ok s.operator := by
  have all : ∀ k : Fin families.length, k.val ≠ 12 → ∀ text ∈ (families.get k).2, text ≠ "?" →
      Operator.named text = .ok ((Operator.ofName? text).getD default) := by
    decide +kernel
  exact all s.family (fun last => by simp [InfixSign.assigns,last] at h) s.text s.listed s.joins

theorem bare_operation (i j k : Info) (op : Operator) (ns : List Node) :
    (Node.call i (.builtin j op) (.arguments k ns false) false).bare = operation op (ns.map Node.bare) := by
  have arguments : (Node.arguments k ns false).bare = .arguments {} (ns.map Node.bare) false := by
    rw [Node.bare_eq]
    rfl
  have builtin : (Node.builtin j op).bare = .builtin {} op := by
    rw [Node.bare_eq]
    rfl
  rw [Node.bare_eq]
  simp only [Node.parts,map_cons,map_nil,arguments,builtin]
  rfl

variable (cx : Elaboration)

theorem toNode_grouped (needed : Bool) {e : Expr} {n : Node} (h : e.toNode cx false = .ok n) :
    ∃ m, (grouped needed e).toNode cx false = .ok m ∧ m.bare = n.bare := by
  cases needed with
  | false => exact ⟨n,h,rfl⟩
  | true =>
    refine ⟨.tuple (Elaboration.infoAt default) [n],?_,?_⟩
    · simp [grouped,Expr.toNode,Expr.toElements,h]
      rfl
    · rw [Node.bare_eq]
      rfl

omit cx in
theorem toNode_operation (p : Pos) (i : Info) {op : String} {found : Operator} (named : Operator.named op = .ok found)
    (ns : List Node) : ∃ m, Elaboration.operation p i op ns = .ok m ∧ m.bare = operation found (ns.map Node.bare) := by
  refine ⟨.call (Elaboration.infoAt p) (.builtin i found) (.arguments {} ns false) false,?_,bare_operation _ _ _ _ _⟩
  rw [Elaboration.operation,named]
  rfl

theorem toNode_expr {t : OperatorTree} (h : t.isValue) : ∃ n, t.expr.toNode cx false = .ok n ∧ n.bare = t.node := by
  induction t with
  | name n =>
    simp only [isValue,Elaboration.isReserved,Bool.not_eq_true',Bool.or_eq_false_iff] at h
    refine ⟨.name (Elaboration.infoAt default) (.identifier (Elaboration.infoAt default) n.text),?_,?_⟩
    · rw [expr,Expr.toNode,Elaboration.identifier]
      simp only [h,Bool.or_self,Bool.false_eq_true,if_false]
      rfl
    · have label : (Node.identifier (Elaboration.infoAt default) n.text).bare = .identifier {} n.text := by
        rw [Node.bare_eq]
        rfl
      rw [Node.bare_eq]
      simp only [Node.parts,map_cons,map_nil,label]
      rfl
  | signed s t ih =>
    obtain ⟨n,found,bare⟩ := ih h
    obtain ⟨m,found',bare'⟩ := toNode_grouped cx t.needsSigned found
    have named : Operator.named (if s.text == "+" || s.text == "-" then "sign" ++ s.text else s.text) = .ok s.operator := by
      cases s <;> decide +kernel
    obtain ⟨k,made,bare''⟩ := toNode_operation default (Elaboration.infoOfSign default) named [m]
    refine ⟨k,?_,?_⟩
    · rw [expr,Expr.toNode,found']
      exact made
    · rw [bare'',node,map_cons,bare',bare]
      rfl
  | joined s l r ihl ihr =>
    simp only [isValue,Bool.and_eq_true,Bool.not_eq_true'] at h
    obtain ⟨⟨joins,valueLeft⟩,valueRight⟩ := h
    obtain ⟨n,found,bare⟩ := ihl valueLeft
    obtain ⟨m,found',bare'⟩ := toNode_grouped cx (l.needsLeft s) found
    obtain ⟨n₂,found₂,bare₂⟩ := ihr valueRight
    obtain ⟨m₂,found₂',bare₂'⟩ := toNode_grouped cx (r.needsRight s) found₂
    obtain ⟨k,made,bare''⟩ := toNode_operation default (Elaboration.infoOfSign default) (named_operator s joins) [m,m₂]
    refine ⟨k,?_,?_⟩
    · rw [expr,joins,if_neg Bool.false_ne_true,Expr.toNode,found',found₂']
      exact made
    · rw [bare'',node,map_cons,map_cons,bare',bare,bare₂',bare₂]
      rfl
  | choice c y n ihc ihy ihn =>
    simp only [isValue,Bool.and_eq_true] at h
    obtain ⟨⟨valueFirst,valueYes⟩,valueNo⟩ := h
    obtain ⟨n₁,found₁,bare₁⟩ := ihc valueFirst
    obtain ⟨m₁,found₁',bare₁'⟩ := toNode_grouped cx c.needsCondition found₁
    obtain ⟨n₂,found₂,bare₂⟩ := ihy valueYes
    obtain ⟨n₃,found₃,bare₃⟩ := ihn valueNo
    obtain ⟨m₃,found₃',bare₃'⟩ := toNode_grouped cx n.needsOtherwise found₃
    have named : Operator.named "ite" = .ok .conditional := by decide +kernel
    obtain ⟨k,made,bare''⟩ := toNode_operation default {} named [m₁,n₂,m₃]
    refine ⟨k,?_,?_⟩
    · rw [expr,Expr.toNode,found₁',found₂,found₃']
      exact made
    · rw [bare'',node,map_cons,map_cons,map_cons,bare₁',bare₁,bare₂,bare₃',bare₃]
      rfl

/-- The text of an operator tree is read as this tree. As concrete syntax the written brackets are
tuples of one element, and as abstract syntax such tuples apart nothing else is left. A lone name
on its own would be read as a type. -/
theorem read_written (t : OperatorTree) :
    (∃ e, Expr.parse t.text = .ok e ∧ e.still = t.expr) ∧
    (t.isValue = true →
      (∃ n, Source.expression t.text = .ok n ∧ n.bare = t.node) ∧
      (t.isName = false → ∃ n, Source.piece t.text = .ok n ∧ n.bare = t.node)) := by
  obtain ⟨e,read,still⟩ := Expr.parse_of_cutUp t.cutUp_text t.fits_expr
  refine ⟨⟨e,read,still.trans t.still_expr⟩,fun value => ?_⟩
  obtain ⟨n,found,bare⟩ := toNode_expr ⟨[],[]⟩ value
  refine ⟨?_,fun notName => ?_⟩
  · obtain ⟨m,source,shape⟩ := Source.expression_of_cutUp t.cutUp_text t.fits_expr found
    exact ⟨m,source,(Node.bare_congr shape).trans bare⟩
  · obtain ⟨m,source,shape⟩ := Source.piece_of_cutUp t.cutUp_text t.fits_expr (noType_tokens notName _) found
    exact ⟨m,source,(Node.bare_congr shape).trans bare⟩

def product : OperatorTree :=
  .joined ⟨"*",⟨1,by decide⟩,by decide,by decide⟩
    (.joined ⟨"+",⟨2,by decide⟩,by decide,by decide⟩ (.name ⟨"a",by decide +kernel⟩) (.name ⟨"b",by decide +kernel⟩))
    (.signed .minus (.name ⟨"c",by decide +kernel⟩))

theorem product_read : product.text = "( a + b ) * - c" ∧ product.isValue = true ∧
    (∃ n, Source.expression product.text = .ok n ∧ n.bare = product.node) ∧
    ∃ n, Source.piece product.text = .ok n ∧ n.bare = product.node := by
  have value : product.isValue = true := by decide +kernel
  have read := product.read_written.2 value
  exact ⟨by decide +kernel,value,read.1,read.2 rfl⟩

end OperatorTree
end Confidential
