import Confidential.Proofs.Numerals
import Confidential.Proofs.Precedence

/-!
The types that a signature can have: words for elementary types, and brackets for arrays behind them.
-/

namespace Confidential

open List

open Token (sign ofKind)

/-- A number as it is written in a source. -/
structure Numeral where
  hexadecimal : Bool
  digits : String
  value : Nat
  token : Token.lexeme digits.toList = (if hexadecimal then .hexadecimal else .decimal,digits.length)
  denotes : (if hexadecimal then Text.natural? 16 (digits.toList.drop 2) else Text.natural? 10 digits.toList) = some value
  accepted : Literal.isAccepted value

namespace Numeral

/-- The number that these digits stand for, if they are a number of a source. -/
def ofDigits? (hexadecimal : Bool) (digits : String) : Option Numeral :=
  match h : if hexadecimal then Text.natural? 16 (digits.toList.drop 2) else Text.natural? 10 digits.toList with
  | none => none
  | some value =>
    if t : Token.lexeme digits.toList = (if hexadecimal then .hexadecimal else .decimal,digits.length) ∧
      Literal.isAccepted value then some ⟨hexadecimal,digits,value,t.1,h,t.2⟩
    else none

theorem eq_of_ofDigits? {hexadecimal : Bool} {digits : String} {m : Numeral} (h : ofDigits? hexadecimal digits = some m) :
    m.hexadecimal = hexadecimal ∧ m.digits = digits := by
  unfold ofDigits? at h
  split at h
  · cases h
  · obtain ⟨_,h⟩ := Option.dite_none_right_eq_some.1 h
    obtain rfl := Option.some.inj h
    exact ⟨rfl,rfl⟩

end Numeral

inductive ArrayLength where
  | numeral (n : Numeral)
  | constant (name : Identifier)

namespace ArrayLength

def written : ArrayLength → String
  | .numeral n => n.digits
  | .constant name => name.text

def decimal (values : String → Nat) : ArrayLength → String
  | .numeral n => toString n.value
  | .constant name => toString (values name.text)

def isDecimal : ArrayLength → Bool
  | .numeral n => !n.hexadecimal
  | .constant _ => false

def isPlain : ArrayLength → Bool
  | .numeral n => n.digits == toString n.value
  | .constant _ => false

def token : ArrayLength → Token
  | .numeral n => ofKind (if n.hexadecimal then .hexadecimal else .decimal) n.digits
  | .constant name => ofKind .name name.text

def bracket (f : ArrayLength → String) : Option ArrayLength → String
  | none => "[]"
  | some l => "[" ++ f l ++ "]"

def tokens : Option ArrayLength → List Token
  | none => [sign "[",sign "]"]
  | some l => [sign "[",l.token,sign "]"]

end ArrayLength

open ArrayLength (bracket)

namespace SignatureType

/-- The words for elementary types that signatures can have. -/
def words : List String :=
  ["bool","address","address payable","uint","int","bytes","string"] ++ (List.range 32).flatMap fun k =>
    ["uint" ++ toString (8 * (k + 1)),"int" ++ toString (8 * (k + 1)),"bytes" ++ toString (k + 1)]

/-- The word of a type as the policy has it in signatures. -/
def spelledWord (w : String) : String :=
  if w = "uint" then "uint256" else w

def canonicalWord (w : String) : String :=
  if w = "uint" then "uint256" else if w = "int" then "int256" else if w = "address payable" then "address" else w

end SignatureType

/-- An elementary type, or an array of arrays of it; the length of the innermost array stands first. -/
structure SignatureType where
  word : String
  lengths : List (Option ArrayLength)
  known : word ∈ SignatureType.words

namespace SignatureType

variable (t : SignatureType)

def textWith (f : String → String) (g : ArrayLength → String) : String :=
  f t.word ++ String.join (t.lengths.map (bracket g))

def written : String :=
  t.textWith (fun w => w) (·.written)

def spelled : String :=
  t.textWith spelledWord (·.written)

/-- The type as signatures have to name it, given the values of constants. -/
def canonical (values : String → Nat) : String :=
  t.textWith canonicalWord (·.decimal values)

/-- No type is in need of another name, and lengths are written in their decimal digits. -/
def isPlain : Bool :=
  t.word ≠ "int" && t.word ≠ "address payable" &&
    t.lengths.all fun l => l.all fun l => l.isPlain

def isDecimal : Bool :=
  t.lengths.all fun l => l.all fun l => l.isDecimal

def tokens : List Token :=
  .typeWord t.word :: t.lengths.flatMap ArrayLength.tokens

end SignatureType

/-! ### Where the tokens of a type end -/

namespace Token

theorem clear_open (cs : List Char) : Clear (sign "[") cs := rfl

theorem clear_close (cs : List Char) : Clear (sign "]") cs := rfl

theorem clear_payable (cs : List Char) : Clear (sign "address payable") cs := rfl

end Token

namespace ArrayLength

variable (l : ArrayLength)

theorem kind_token : l.token.kind ≠ .fixed := by
  cases l with
  | numeral n => cases h : n.hexadecimal <;> simp [token,ofKind,h]
  | constant => simp [token,ofKind]

theorem cutUp_token {cs : List Char} : Token.cutUp (l.written.toList ++ ']' :: cs) = l.token :: Token.cutUp (']' :: cs) := by
  cases l with
  | numeral n =>
    have number : (token (.numeral n)).kind.isNumber := by
      cases h : n.hexadecimal <;> simp [token,ofKind,h,Token.Kind.isNumber]
    have written : (token (.numeral n)).IsWritten := by
      refine ⟨fun empty => ?_,fun hidden => ?_⟩
      · have token := n.token
        rw [show n.digits.toList = [] from empty] at token
        cases h : n.hexadecimal <;> simp [Token.lexeme,h] at token
      · rw [hidden] at number
        cases number
    have ends : Token.EndsNumber (']' :: cs) := by
      rintro c ⟨rfl⟩
      decide
    exact Token.cutUp_append (t := token (.numeral n)) (Token.clear_number number n.token ends) written
  | constant name =>
    have word : (token (.constant name)).IsWord := by
      have taken := Token.isWord_of_lexeme name.isName (.inl rfl)
      rwa [← String.length_toList,take_length,String.ofList_toList] at taken
    have ends : Token.EndsWord (']' :: cs) := by
      refine ⟨?_,?_⟩ <;> rintro c ⟨rfl⟩ <;> decide
    refine Token.cutUp_append (t := token (.constant name)) (word.clear ends ?_) word.written
    rintro - ⟨rest,eq⟩
    cases eq

theorem cutUp_bracket (l : Option ArrayLength) (cs : List Char) :
    Token.cutUp ((bracket (·.written) l).toList ++ cs) = tokens l ++ Token.cutUp cs := by
  have opened (cs : List Char) : Token.cutUp ('[' :: cs) = sign "[" :: Token.cutUp cs :=
    Token.cutUp_append (t := sign "[") (Token.clear_open cs) ⟨by decide,by decide⟩
  have closed (cs : List Char) : Token.cutUp (']' :: cs) = sign "]" :: Token.cutUp cs :=
    Token.cutUp_append (t := sign "]") (Token.clear_close cs) ⟨by decide,by decide⟩
  cases l with
  | none => exact (opened _).trans (congrArg _ (closed cs))
  | some l =>
    simp only [bracket,String.toList_append,append_assoc,tokens]
    exact (opened _).trans (congrArg _ (l.cutUp_token.trans (congrArg _ (closed cs))))

theorem cutUp_brackets (ls : List (Option ArrayLength)) :
    Token.cutUp (String.join (ls.map (bracket (·.written)))).toList = ls.flatMap tokens ++ [ofKind .finish ""] := by
  induction ls with
  | nil => rfl
  | cons _ _ ih =>
    rw [map_cons,String.join_cons,String.toList_append,cutUp_bracket,ih,flatMap_cons,append_assoc]

end ArrayLength

namespace SignatureType

theorem isWord_of_mem : ∀ w ∈ words, w ≠ "address payable" →
    (w.toList.head?.any Token.isNameStart && w.toList.all Token.isNamePart) ∧
      Token.wordKind w = (Token.typeWord w).kind := by
  decide +kernel

theorem cutUp_word {w : String} (known : w ∈ words) {cs : List Char} (ends : ∀ c ∈ cs.head?, c = '[') :
    Token.cutUp (w.toList ++ cs) = Token.typeWord w :: Token.cutUp cs := by
  by_cases payable : w = "address payable"
  · subst payable
    exact Token.cutUp_append (t := sign "address payable") (Token.clear_payable cs) ⟨by decide,by decide⟩
  · obtain ⟨chars,kind⟩ := isWord_of_mem w known payable
    rw [Bool.and_eq_true,Option.any_eq_true] at chars
    obtain ⟨⟨c,head,start⟩,parts⟩ := chars
    have word : (Token.typeWord w).IsWord := by
      refine ⟨⟨c,w.toList.tail,?_,start⟩,parts,kind⟩
      exact (cons_head?_tail head).symm
    refine Token.cutUp_append (t := Token.typeWord w) (word.clear ⟨?_,?_⟩ ?_) word.written
    · intro c hc
      rw [ends c hc]
      decide
    · intro c hc
      rw [ends c hc]
      decide
    · rintro - ⟨rest,eq⟩
      have := ends ' ' (by rw [← eq]; rfl)
      cases this

theorem cutUp_written (t : SignatureType) : Token.cutUp t.written.toList = t.tokens ++ [ofKind .finish ""] := by
  have brackets := ArrayLength.cutUp_brackets t.lengths
  rw [written,textWith,String.toList_append,cutUp_word t.known,brackets,tokens,cons_append]
  cases t.lengths with
  | nil => simp
  | cons l => cases l <;> simp [bracket,String.join_cons]

end SignatureType

/-! ### Reading a type -/

open Surface
open Confidential.Parser

namespace ArrayLength

def toExpr : ArrayLength → Expr
  | .numeral n => .number default n.hexadecimal n.digits
  | .constant name => .name ⟨default,name.text⟩

theorem reads_arraySize {n : Nat} (pos : 0 < n) (l : Option ArrayLength) (rest : List Token) :
    Reads (Rules.depth n).arraySize (tokens l ++ rest) (l.map toExpr) rest := by
  cases l with
  | none =>
    refine (reads_sign "[" _).bind ?_
    refine (reads_nextIs (sign "]") _ "]").bind ?_
    exact (reads_pure _ _).bind ((reads_sign "]" _).bind (reads_pure _ _))
  | some l =>
    have size : Reads (Rules.depth n).expression (l.token :: sign "]" :: rest) l.toExpr (sign "]" :: rest) := by
      have complete := Rules.complete_depth n
      have closes := Token.closes_sign "]" (by decide) 0 rest
      cases l with
      | numeral m => exact complete.reads_expression (e := toExpr (.numeral m)) rfl pos closes
      | constant name => exact complete.reads_expression (e := toExpr (.constant name)) rfl pos closes
    refine (reads_sign "[" _).bind ((reads_nextIs l.token _ "]").bind ?_)
    rw [Token.isFixed_of_kind l.kind_token]
    exact size.closely.map.bind ((reads_sign "]" _).bind (reads_pure _ _))

end ArrayLength

namespace SignatureType

def surface (w : String) (ls : List (Option ArrayLength)) : TypeName :=
  ls.foldl (fun T l => .array default T (l.map ArrayLength.toExpr)) (.elementary ⟨default,w⟩)

theorem isElementary_of_mem : ∀ w ∈ words, Rules.isElementary (.typeWord w) := by
  decide +kernel

theorem reads_type (t : SignatureType) {n : Nat} (pos : 0 < n) :
    Reads (Rules.depth (n + 1)).type (t.tokens ++ [ofKind .finish ""]) (surface t.word t.lengths) [ofKind .finish ""] := by
  have base (rest : List Token) :
      Reads (Rules.depth n).typeBase (.typeWord t.word :: rest) (.elementary ⟨default,t.word⟩) rest := by
    have word : Reads Rules.elementary (.typeWord t.word :: rest) ⟨default,t.word⟩ rest :=
      (reads_satisfy _ (isElementary_of_mem _ t.known) rest).bind (reads_pure _ _)
    exact Reads.orElse (word.bind (reads_pure _ _))
  have sizes : Reads (many (Rules.depth n).arraySize) (t.lengths.flatMap ArrayLength.tokens ++ [ofKind .finish ""])
      (t.lengths.map (Option.map ArrayLength.toExpr)) [ofKind .finish ""] := by
    refine @reads_many _ _ _ _ (fun _ => True) _ _ t.lengths (fun l _ rest _ => ArrayLength.reads_arraySize pos l rest)
      (fun _ _ _ => trivial) trivial ?_ fun l _ => ?_
    · exact (fails_fixed rfl _).bind
    · cases l <;> exact cons_ne_nil _ _
  refine (reads_here _ _).bind ((base _).bind (sizes.bind ?_))
  rw [foldl_map]
  exact reads_pure _ _

theorem surface_concat (w : String) (ls : List (Option ArrayLength)) (l : Option ArrayLength) :
    surface w (ls ++ [l]) = .array default (surface w ls) (l.map ArrayLength.toExpr) :=
  foldl_concat ..

theorem parse_written (t : SignatureType) :
    ∃ p T, Surface.Source.parse ("SOL " ++ t.written) = .ok (.type p T) ∧ T.still = surface t.word t.lengths := by
  have type : Reads (Rules.depth ((t.tokens ++ [ofKind .finish ""]).length + 1)).type (t.tokens ++ [ofKind .finish ""])
      (surface t.word t.lengths) [ofKind .finish ""] := t.reads_type (by simp)
  obtain ⟨s,read,same⟩ := Confidential.Source.parse_of_cutUp t.cutUp_written
    ((reads_sign "SOL" _).bind (Reads.orElse (type.bind ((reads_finish []).bind (reads_pure _ _)))))
  cases s with
  | type p T => exact ⟨p,T,read,by injection same⟩
  | _ => simp [Surface.Source.still] at same

/-! ### The names of types in signatures -/

variable {e : Expr} {n : Node} {w : String}

variable {ls : List (Option ArrayLength)} {T : TypeName} {l : ArrayLength} {cx : Elaboration}

theorem elementary_at (h : (⟨[],[]⟩ : Elaboration).elementary ⟨default,w⟩ = .ok n) (cx : Elaboration)
    (p : Pos) : cx.elementary ⟨p,w⟩ = .ok (n.withInfo (Elaboration.infoAt p)) := by
  have refused (message : String) {α : Type} (a : α) : (⟨[],[]⟩ : Elaboration).refuse default message ≠ .ok a := by
    intro eq
    have void := Elaboration.toOption_refuse (α := α) ⟨[],[]⟩ default message
    rw [eq] at void
    cases void
  have fromName {x : Outcome Elementary} (h : (do return .elementary (Elaboration.infoAt default) (← x)) = Except.ok n) :
      (do return .elementary (Elaboration.infoAt p) (← x)) = Except.ok (n.withInfo (Elaboration.infoAt p)) := by
    obtain ⟨e,rfl,eq⟩ := bind_ok.1 h
    cases eq
    rfl
  unfold Elaboration.elementary at h ⊢
  dsimp only at h ⊢
  split_ifs at h ⊢
  · cases h; rfl
  · cases h; rfl
  · cases h; rfl
  · exact fromName h
  · exact fromName h
  · exact fromName h
  · cases h; rfl
  · obtain ⟨_,eq,-⟩ := bind_ok.1 h
    exact absurd eq (refused _ _)
  · exact absurd h (refused _ _)

/-- The word of a type is read as a type that goes by this word, and `uint` as the one that is short for another. -/
def isNamed (w : String) : Bool :=
  match (⟨[],[]⟩ : Elaboration).elementary ⟨default,w⟩ with
  | .ok (.elementary i e) => e.name == w && (Shape.ofType (.elementary i e)).toOption.isSome &&
    (match e with
      | .uint "uint" _ => w == "uint"
      | _ => w != "uint")
  | .ok (.userType _ k _) => k == .address && w == "address" || k == .addressPayable && w == "address payable"
  | _ => false

theorem isNamed_of_mem : ∀ w ∈ words, isNamed w := by
  decide +kernel

def IsLength : Option ArrayLength → Node → Prop
  | none, n => n = .omitted
  | some (.numeral m), n => ∃ i, n = .number i m.value m.hexadecimal (some m.digits) none
  | some (.constant x), n => ∃ i j, n = .name i (.identifier j x.text)

def IsElementary (w : String) : Node → Prop
  | .elementary _ e => ∃ i, (⟨[],[]⟩ : Elaboration).elementary ⟨default,w⟩ = .ok (.elementary i e)
  | .userType _ .address _ => w = "address"
  | .userType _ .addressPayable _ => w = "address payable"
  | _ => False

inductive IsType (w : String) : List (Option ArrayLength) → Node → Prop
  | word {n : Node} : IsElementary w n → IsType w [] n
  | array {ls : List (Option ArrayLength)} {n : Node} {l : Option ArrayLength} {size : Node} (i : Info) :
    IsType w ls n → IsLength l size → IsType w (ls ++ [l]) (.arrayType i n size)

theorem IsType.withInfo (h : IsType w ls n) (i : Info) :
    IsType w ls (n.withInfo i) := by
  cases h with
  | word named =>
    refine .word ?_
    cases n with
    | userType _ kind => cases kind <;> exact named
    | _ => exact named
  | array _ type size => exact .array i type size

theorem exists_elementary (known : w ∈ words) :
    ∃ n, (⟨[],[]⟩ : Elaboration).elementary ⟨default,w⟩ = .ok n ∧ ∀ i, IsElementary w (n.withInfo i) := by
  have named := isNamed_of_mem w known
  unfold isNamed at named
  split at named
  next j e eq => exact ⟨_,eq,fun _ => ⟨j,eq⟩⟩
  next eq =>
    refine ⟨_,eq,fun _ => ?_⟩
    simp only [Bool.or_eq_true,Bool.and_eq_true,beq_iff_eq] at named
    obtain ⟨rfl,rfl⟩ | ⟨rfl,rfl⟩ := named <;> rfl
  next => cases named

theorem still_eq_number {hexadecimal : Bool} {digits : String} (h : e.still = .number default hexadecimal digits) :
    ∃ p, e = .number p hexadecimal digits := by
  cases e with
  | number p =>
    simp only [Expr.still,Expr.number.injEq,true_and] at h
    exact ⟨p,by rw [h.1,h.2]⟩
  | _ => simp [Expr.still] at h

theorem still_eq_name {x : String} (h : e.still = .name ⟨default,x⟩) : ∃ p, e = .name ⟨p,x⟩ := by
  cases e with
  | name w =>
    obtain ⟨p,y⟩ := w
    obtain rfl : y = x := by simpa [Expr.still,Word.still] using h
    exact ⟨p,rfl⟩
  | _ => simp [Expr.still] at h

theorem still_eq_elementary (h : T.still = .elementary ⟨default,w⟩) :
    ∃ p, T = .elementary ⟨p,w⟩ := by
  cases T with
  | elementary v =>
    obtain ⟨p,x⟩ := v
    obtain rfl : x = w := by simpa [TypeName.still,Word.still] using h
    exact ⟨p,rfl⟩
  | array _ _ size => cases size <;> simp [TypeName.still] at h
  | function _ parameters _ _ returns => cases parameters <;> cases returns <;> simp [TypeName.still] at h
  | _ => simp [TypeName.still] at h

theorem still_eq_array {element : TypeName} {size : Option Expr} (h : T.still = .array default element size) :
    ∃ p element' size', T = .array p element' size' ∧ element'.still = element ∧ size'.map Expr.still = size := by
  cases T with
  | array p element' size' =>
    refine ⟨p,element',size',rfl,?_⟩
    cases size' <;> simpa [TypeName.still] using h
  | function _ parameters _ _ returns => cases parameters <;> cases returns <;> simp [TypeName.still] at h
  | _ => simp [TypeName.still] at h

theorem toNode_array (cx : Elaboration) (p : Pos) (T : TypeName) (size : Option Expr) : (TypeName.array p T size).toNode cx = (do
    let t ← T.toNode cx
    return .arrayType (Elaboration.infoAt p) t (← Expr.toOptional cx size)) := by
  rw [TypeName.toNode]
  cases size <;> rfl

theorem isLength_of_toNode (same : e.still = l.toExpr) (h : e.toNode cx false = .ok n) : IsLength (some l) n := by
  cases l with
  | numeral m =>
    obtain ⟨p,rfl⟩ := still_eq_number same
    rw [Expr.toNode,Elaboration.number] at h
    simp only [m.denotes,m.accepted,if_true] at h
    exact ⟨_,(Except.ok.inj h).symm⟩
  | constant =>
    obtain ⟨p,rfl⟩ := still_eq_name same
    rw [Expr.toNode] at h
    obtain ⟨m,label,eq⟩ := bind_ok.1 h
    obtain rfl := Except.ok.inj eq
    have refused (message : String) : cx.refuse p message ≠ .ok m := by
      intro eq
      have void := Elaboration.toOption_refuse (α := Node) cx p message
      rw [eq] at void
      cases void
    unfold Elaboration.identifier at label
    split_ifs at label
    · exact absurd label (refused _)
    · exact absurd label (refused _)
    · exact ⟨_,_,by rw [← Except.ok.inj label]⟩

theorem exists_toNode_length (decimal : l.isDecimal) (same : e.still = l.toExpr) (cx : Elaboration) :
    ∃ n, e.toNode cx false = .ok n := by
  cases l with
  | constant => cases decimal
  | numeral m =>
    obtain ⟨p,rfl⟩ := still_eq_number same
    rw [Expr.toNode,Elaboration.number]
    simp only [m.denotes,m.accepted,if_true]
    exact ⟨_,rfl⟩

theorem isType_of_toNode (known : w ∈ words) (same : T.still = surface w ls) (h : T.toNode cx = .ok n) : IsType w ls n := by
  induction ls using List.reverseRecOn generalizing T n with
  | nil =>
    obtain ⟨p,rfl⟩ := still_eq_elementary same
    obtain ⟨m,eq,named⟩ := exists_elementary known
    obtain rfl := Except.ok.inj ((elementary_at eq cx p).symm.trans h)
    exact .word (named _)
  | append_singleton _ l ih =>
    rw [surface_concat] at same
    obtain ⟨p,element,size,rfl,type,length⟩ := still_eq_array same
    rw [toNode_array] at h
    obtain ⟨t,elementOk,h⟩ := bind_ok.1 h
    obtain ⟨s,sizeOk,h⟩ := bind_ok.1 h
    obtain rfl := Except.ok.inj h
    refine .array _ (ih type elementOk) ?_
    cases l with
    | none =>
      obtain rfl := Option.map_eq_none_iff.1 length
      exact (Except.ok.inj sizeOk).symm
    | some =>
      obtain ⟨e,rfl,eq⟩ := Option.map_eq_some_iff.1 length
      exact isLength_of_toNode eq sizeOk

theorem exists_toNode (known : w ∈ words) (decimal : ∀ l ∈ ls, l.all (·.isDecimal))
    (same : T.still = surface w ls) (cx : Elaboration) : ∃ n, T.toNode cx = .ok n := by
  induction ls using List.reverseRecOn generalizing T with
  | nil =>
    obtain ⟨p,rfl⟩ := still_eq_elementary same
    obtain ⟨m,eq,-⟩ := exists_elementary known
    exact ⟨_,elementary_at eq cx p⟩
  | append_singleton _ l ih =>
    rw [surface_concat] at same
    obtain ⟨p,element,size,rfl,type,length⟩ := still_eq_array same
    obtain ⟨t,elementOk⟩ := ih (fun l hl => decimal l (by simp [hl])) type
    obtain ⟨s,sizeOk⟩ : ∃ s, Expr.toOptional cx size = .ok s := by
      cases l with
      | none =>
        obtain rfl := Option.map_eq_none_iff.1 length
        exact ⟨_,rfl⟩
      | some l =>
        obtain ⟨e,rfl,eq⟩ := Option.map_eq_some_iff.1 length
        exact exists_toNode_length (decimal (some l) (by simp)) eq cx
    rw [toNode_array]
    exact ⟨_,bind_ok.2 ⟨t,elementOk,bind_ok.2 ⟨s,sizeOk,rfl⟩⟩⟩

/-! ### What the policy makes of a type -/

section Names

variable {w : String} {ls : List (Option ArrayLength)} {n : Node}

theorem ofType_elementary (i j : Info) (e : Elementary) : Shape.ofType (.elementary i e) = Shape.ofType (.elementary j e) := by
  cases e <;> rfl

theorem concreteType_eq (other : ∀ i bits, n ≠ .elementary i (.uint "uint" bits)) :
    n.concreteType = n.withParts (n.parts.map Node.concreteType) := by
  rw [Node.concreteType.eq_def]
  split
  next i bits => exact absurd rfl (other i bits)
  next => rw [attach_map_val]

theorem concreteType_arrayType (i : Info) (t size : Node) :
    (Node.arrayType i t size).concreteType = .arrayType i t.concreteType size.concreteType :=
  concreteType_eq (by simp)

theorem IsElementary.facts (known : w ∈ words) (h : IsElementary w n) : n.code {} = .ok w ∧ (∃ s, Shape.ofType n = .ok s) ∧
    n.concreteType.code {} = .ok (spelledWord w) := by
  unfold IsElementary at h
  split at h
  next i e =>
    obtain ⟨j,eq⟩ := h
    have named := isNamed_of_mem w known
    rw [isNamed,eq] at named
    simp only [Bool.and_eq_true,beq_iff_eq] at named
    obtain ⟨⟨rfl,described⟩,short⟩ := named
    refine ⟨rfl,?_,?_⟩
    · rw [ofType_elementary i j]
      cases shape : Shape.ofType (.elementary j e) with
      | error => simp [shape,Except.toOption] at described
      | ok s => exact ⟨s,rfl⟩
    · split at short
      next bits =>
        rw [Node.concreteType]
        rfl
      next other =>
        rw [spelledWord,if_neg (by simpa using short),concreteType_eq]
        · rfl
        · rintro i bits ⟨⟩
          exact other bits rfl
  next =>
    subst h
    rw [concreteType_eq (by simp)]
    exact ⟨rfl,⟨_,rfl⟩,rfl⟩
  next =>
    subst h
    rw [concreteType_eq (by simp)]
    exact ⟨rfl,⟨_,rfl⟩,rfl⟩
  next => cases h

theorem integer?_hexadecimal (m : Numeral) (h : m.hexadecimal) : Text.integer? m.digits = none := by
  have token := m.token
  have denotes := m.denotes
  simp only [h,if_true] at token denotes
  obtain ⟨x,rest,eq,mark⟩ := Token.marked_of_lexeme (congrArg Prod.fst token)
  rw [eq] at denotes
  have chars : ∀ c ∈ m.digits.toList, Text.isBlank c = false := by
    rw [eq,forall_mem_cons,forall_mem_cons]
    refine ⟨by decide,by obtain rfl | rfl := mark <;> decide,fun c hc => Text.isBlank_of_digit ?_⟩
    exact Text.isSome_of_natural? denotes c hc
  unfold Text.integer?
  rw [Text.trim_eq_self chars,eq]
  obtain rfl | rfl := mark <;> simp [Text.natural?,Text.digitsValue?,Text.digitValue?]

theorem integer?_name (x : Identifier) : Text.integer? x.text = none := by
  have word := Token.isWord_of_lexeme x.isName (.inl rfl)
  rw [← String.length_toList,take_length,String.ofList_toList] at word
  obtain ⟨c,cs,eq,start⟩ := word.starts
  have blank : ∀ c ∈ x.text.toList, Text.isBlank c = false := fun c hc =>
    Text.isBlank_of_isNamePart (all_eq_true.1 word.parts c hc)
  unfold Text.integer?
  rw [Text.trim_eq_self blank,show x.text.toList = c :: cs from eq]
  split
  next same =>
    obtain ⟨rfl,-⟩ := List.cons.inj same
    cases start
  next same =>
    obtain ⟨rfl,-⟩ := List.cons.inj same
    cases start
  next => rw [Text.natural?_of_isNameStart start]; rfl

theorem integer?_decimal (m : Numeral) (h : m.hexadecimal = false) : Text.integer? m.digits = some (m.value : Int) := by
  have denotes := m.denotes
  simp only [h,Bool.false_eq_true,if_false] at denotes
  exact Text.integer?_of_natural? denotes

variable {size : Node}

theorem code_arrayType {style : Style} (given : size ≠ .omitted) (i : Info) (t : Node) : Node.code style (.arrayType i t size) = do
    let v ← t.code style
    return v ++ "[" ++ (← size.code style) ++ "]" := by
  cases size with
  | omitted => exact absurd rfl given
  | _ => rfl

theorem ofType_arrayType_iff (given : size ≠ .omitted) {i : Info} {t : Node} :
    (∃ s, Shape.ofType (.arrayType i t size) = .ok s) ↔
      (∃ v, Shape.ofType t = .ok v) ∧ ∃ x k, size.code {} = .ok x ∧ Text.integer? x = some k := by
  rw [Shape.ofType]
  · constructor
    · rintro ⟨s,h⟩
      obtain ⟨v,value,h⟩ := bind_ok.1 h
      obtain ⟨x,text,h⟩ := bind_ok.1 h
      refine ⟨⟨v,value⟩,x,?_⟩
      cases integer : Text.integer? x with
      | none => simp [integer] at h
      | some k => exact ⟨k,text,rfl⟩
    · rintro ⟨⟨v,value⟩,x,k,text,integer⟩
      refine ⟨.array v (some k),bind_ok.2 ⟨v,value,bind_ok.2 ⟨x,text,?_⟩⟩⟩
      rw [integer]
      rfl
  · exact given

theorem IsLength.code {l : ArrayLength} (h : IsLength (some l) size) :
    size ≠ .omitted ∧ size.concreteType = size ∧ size.code {} = .ok l.written := by
  cases l with
  | numeral =>
    obtain ⟨i,rfl⟩ := h
    exact ⟨by simp,concreteType_eq (by simp),rfl⟩
  | constant =>
    obtain ⟨i,j,rfl⟩ := h
    refine ⟨by simp,?_,rfl⟩
    rw [concreteType_eq (by simp)]
    simp [Node.parts,Node.withParts,concreteType_eq]

theorem isSome_integer? (l : ArrayLength) : (Text.integer? l.written).isSome = l.isDecimal := by
  cases l with
  | constant => simp [ArrayLength.written,ArrayLength.isDecimal,integer?_name]
  | numeral m =>
    cases hex : m.hexadecimal with
    | false => simp [ArrayLength.written,ArrayLength.isDecimal,integer?_decimal m hex,hex]
    | true => simp [ArrayLength.written,ArrayLength.isDecimal,integer?_hexadecimal m hex,hex]

theorem IsLength.text {l : Option ArrayLength} {t : String} (length : IsLength l size) (text : n.code {} = .ok t) (i : Info) :
    Node.code {} (.arrayType i n size) = .ok (t ++ bracket (·.written) l) ∧ size.concreteType = size := by
  cases l with
  | none =>
    obtain rfl : size = .omitted := length
    exact ⟨bind_ok.2 ⟨_,text,rfl⟩,concreteType_eq (by simp)⟩
  | some =>
    obtain ⟨given,same,written⟩ := IsLength.code length
    rw [code_arrayType given]
    refine ⟨bind_ok.2 ⟨_,text,bind_ok.2 ⟨_,written,?_⟩⟩,same⟩
    simp [bracket,pure,Except.pure,String.append_assoc]

theorem IsType.code (known : w ∈ words) (h : IsType w ls n) :
    n.code {} = .ok (w ++ String.join (ls.map (bracket (·.written)))) ∧
      n.concreteType.code {} = .ok (spelledWord w ++ String.join (ls.map (bracket (·.written)))) := by
  induction h with
  | word named => simp [named.facts known]
  | array i _ length ih =>
    rw [concreteType_arrayType,(length.text ih.1 i).1,(length.text ih.1 i).2,(length.text ih.2 i).1]
    simp [String.join_append,String.join_cons,String.append_assoc]

theorem IsType.described_iff (known : w ∈ words) (h : IsType w ls n) :
    (∃ s, Shape.ofType n = .ok s) ↔ ∀ l ∈ ls, l.all (·.isDecimal) := by
  induction h with
  | word named => simp [(named.facts known).2.1]
  | @array ls n l size i type length ih =>
    rw [forall_mem_append,← ih,forall_mem_singleton]
    cases l with
    | none =>
      obtain rfl : size = .omitted := length
      rw [Shape.ofType]
      constructor
      · rintro ⟨s,h⟩
        obtain ⟨v,value,-⟩ := bind_ok.1 h
        exact ⟨⟨v,value⟩,rfl⟩
      · rintro ⟨⟨v,value⟩,-⟩
        exact ⟨_,bind_ok.2 ⟨v,value,rfl⟩⟩
    | some =>
      obtain ⟨given,-,text⟩ := IsLength.code length
      rw [ofType_arrayType_iff given,text,Option.all_some,← isSome_integer?,Option.isSome_iff_exists]
      simp

end Names

variable (t : SignatureType)

theorem piece_written : (∀ again, Source.piece t.written = .ok again → IsType t.word t.lengths again) ∧
    (t.isDecimal → ∃ again, Source.piece t.written = .ok again) := by
  obtain ⟨p,T,read,same⟩ := t.parse_written
  have parsed : Source.parse ("SOL " ++ t.written) = .ok (.type p T) := by rw [Source.parse,read]
  let cx : Elaboration := ⟨Text.lines t.written,("SOL " ++ t.written).toList⟩
  have piece (n : Node) : Source.piece t.written = .ok n ↔ ∃ m, T.toNode cx = .ok m ∧ Elaboration.placedAt p m = n := by
    rw [Source.piece,bind_ok]
    simp only [parsed,Except.ok.injEq,exists_eq_left',bind_ok,Surface.Source.toNode]
    constructor
    · rintro ⟨source,⟨m,node,made⟩,last⟩
      obtain rfl := Except.ok.inj made
      exact ⟨m,node,Except.ok.inj last⟩
    · rintro ⟨m,node,rfl⟩
      exact ⟨_,⟨m,node,rfl⟩,rfl⟩
  constructor
  · intro again h
    obtain ⟨n,node,rfl⟩ := (piece _).1 h
    exact (isType_of_toNode t.known same node).withInfo _
  · intro decimal
    obtain ⟨n,node⟩ := exists_toNode t.known (all_eq_true.1 decimal) same cx
    exact ⟨_,(piece _).2 ⟨n,node,rfl⟩⟩

/-! ### The names that signatures have to have -/

theorem eq_of_divided {c : Char} {u v x y : List Char} (hu : c ∉ u) (hv : c ∉ v) (h : u ++ c :: x = v ++ c :: y) : u = v ∧ x = y := by
  induction u generalizing v with
  | nil =>
    cases v with
    | nil => exact ⟨rfl,(List.cons.inj h).2⟩
    | cons =>
      obtain ⟨rfl,-⟩ := List.cons.inj h
      simp at hv
  | cons _ _ ih =>
    cases v with
    | nil =>
      obtain ⟨rfl,-⟩ := List.cons.inj h
      simp at hu
    | cons =>
      rw [cons_append,cons_append] at h
      obtain ⟨rfl,more⟩ := List.cons.inj h
      obtain ⟨rfl,rest⟩ := ih (fun m => hu (.tail _ m)) (fun m => hv (.tail _ m)) more
      exact ⟨rfl,rest⟩

theorem isNamePart_of_written (l : ArrayLength) : ∀ c ∈ l.written.toList, Token.isNamePart c := by
  cases l with
  | constant x =>
    have word := Token.isWord_of_lexeme x.isName (.inl rfl)
    rw [← String.length_toList,take_length,String.ofList_toList] at word
    exact all_eq_true.1 word.parts
  | numeral m =>
    have token := m.token
    have denotes := m.denotes
    cases hex : m.hexadecimal with
    | false =>
      simp only [hex,Bool.false_eq_true,if_false] at denotes
      exact fun c hc => Text.isNamePart_of_digit (Text.isSome_of_natural? denotes c hc)
    | true =>
      simp only [hex,if_true] at token denotes
      obtain ⟨x,rest,eq,mark⟩ := Token.marked_of_lexeme (congrArg Prod.fst token)
      rw [eq] at denotes
      rw [ArrayLength.written,eq,forall_mem_cons,forall_mem_cons]
      refine ⟨by decide,by obtain rfl | rfl := mark <;> decide,fun c hc => Text.isNamePart_of_digit ?_⟩
      exact Text.isSome_of_natural? denotes c hc

theorem isDigit_of_toString (n : Nat) : ∀ c ∈ (toString n).toList, c.isDigit := by
  intro c hc
  rw [Nat.toString_eq_ofList_toDigits,String.toList_ofList] at hc
  exact Nat.isDigit_of_mem_toDigits (by decide) (by decide) hc

theorem isDigit_of_decimal (values : String → Nat) (l : ArrayLength) : ∀ c ∈ (l.decimal values).toList, c.isDigit := by
  cases l <;> exact isDigit_of_toString _

theorem isDecimal_length {l : ArrayLength} (h : l.isPlain) : l.isDecimal := by
  cases l with
  | constant => cases h
  | numeral m =>
    have digits : m.digits = toString m.value := by simpa [ArrayLength.isPlain] using h
    cases hex : m.hexadecimal with
    | false => simp [ArrayLength.isDecimal,hex]
    | true =>
      have token := m.token
      simp only [hex,if_true] at token
      obtain ⟨x,rest,eq,mark⟩ := Token.marked_of_lexeme (congrArg Prod.fst token)
      have digit := isDigit_of_toString m.value x (by rw [← digits,eq]; simp)
      obtain rfl | rfl := mark <;> cases digit

theorem isDecimal_of_isPlain (h : t.isPlain) : t.isDecimal := by
  rw [isPlain,Bool.and_eq_true,all_eq_true] at h
  refine all_eq_true.2 fun l hl => ?_
  cases l with
  | none => rfl
  | some l => exact isDecimal_length (h.2 (some l) hl)

theorem written_eq_decimal_iff (values : String → Nat) (l : ArrayLength) : l.written = l.decimal values ↔ l.isPlain := by
  cases l with
  | numeral => simp [ArrayLength.written,ArrayLength.decimal,ArrayLength.isPlain]
  | constant x =>
    refine iff_of_false (fun same => ?_) (by simp [ArrayLength.isPlain])
    have word := Token.isWord_of_lexeme x.isName (.inl rfl)
    rw [← String.length_toList,take_length,String.ofList_toList] at word
    obtain ⟨c,cs,eq,start⟩ := word.starts
    have digit := isDigit_of_toString (values x.text) c (by
      rw [← show x.text = toString (values x.text) from same,show x.text.toList = c :: cs from eq]
      simp)
    rw [Text.isDigit_of_isNameStart start] at digit
    cases digit

theorem join_brackets_inj {f g : ArrayLength → String} (ls : List (Option ArrayLength)) (hf : ∀ l, ']' ∉ (f l).toList)
    (hg : ∀ l, ']' ∉ (g l).toList) : String.join (ls.map (bracket f)) = String.join (ls.map (bracket g)) ↔
      ∀ l ∈ ls, ∀ m ∈ l, f m = g m := by
  induction ls with
  | nil => simp
  | cons l _ ih =>
    rw [forall_mem_cons,← ih,map_cons,map_cons,String.join_cons,String.join_cons]
    cases l with
    | none => simp [bracket]
    | some l =>
      constructor
      · intro h
        have chars := congrArg String.toList h
        simp only [bracket,String.toList_append,append_assoc,append_cancel_left_eq] at chars
        obtain ⟨same,rest⟩ := eq_of_divided (hf l) (hg l) chars
        exact ⟨by simpa using String.toList_injective same,String.toList_injective rest⟩
      · rintro ⟨same,rest⟩
        simp [bracket,same,rest]

theorem not_mem_word : ∀ w ∈ words, '[' ∉ (spelledWord w).toList ∧ '[' ∉ (canonicalWord w).toList ∧
    (spelledWord w = canonicalWord w ↔ w ≠ "int" ∧ w ≠ "address payable") := by
  decide +kernel

theorem takeWhile_textWith {f : String → String} (g : ArrayLength → String) (word : '[' ∉ (f t.word).toList) :
    (t.textWith f g).toList.takeWhile (· ≠ '[') = (f t.word).toList := by
  rw [textWith,String.toList_append,takeWhile_append_of_pos]
  · cases t.lengths with
    | nil => simp
    | cons l => cases l <;> simp [bracket,String.join_cons]
  · intro c hc
    have : c ≠ '[' := by
      rintro rfl
      exact word hc
    simpa using this

theorem spelled_eq_canonical_iff (values : String → Nat) : t.spelled = t.canonical values ↔ t.isPlain := by
  obtain ⟨left,right,same⟩ := not_mem_word t.word t.known
  have close (l : ArrayLength) : ']' ∉ l.written.toList := fun h => by cases isNamePart_of_written l _ h
  have close' (l : ArrayLength) : ']' ∉ (l.decimal values).toList := fun h => by cases isDigit_of_decimal values l _ h
  have plain : t.isPlain ↔ (t.word ≠ "int" ∧ t.word ≠ "address payable") ∧
      ∀ l ∈ t.lengths, ∀ m ∈ l, m.written = m.decimal values := by
    simp only [isPlain,Bool.and_eq_true,decide_eq_true_eq,all_eq_true,Option.all_eq_true,written_eq_decimal_iff]
    rfl
  rw [plain,← same,← join_brackets_inj t.lengths close close']
  constructor
  · intro h
    have chars := congrArg (fun s => s.toList.takeWhile (· ≠ '[')) h
    rw [spelled,canonical,t.takeWhile_textWith _ left,t.takeWhile_textWith _ right] at chars
    have word := String.toList_injective chars
    refine ⟨word,?_⟩
    rw [spelled,canonical,textWith,textWith,word] at h
    simpa using h
  · rintro ⟨word,brackets⟩
    rw [spelled,canonical,textWith,textWith,word,brackets]

end SignatureType

namespace Node

open SignatureType

def arrayLength? : Node → Option (Option ArrayLength)
  | .omitted => some none
  | .number _ value hexadecimal (some digits) none => do
    let m ← Numeral.ofDigits? hexadecimal digits
    if (m.value : Int) = value then some (some (.numeral m)) else none
  | .name _ (.identifier _ x) =>
    if h : Token.lexeme x.toList = (.name,x.length) then some (some (.constant ⟨x,h⟩)) else none
  | _ => none

def elementaryType? (w : String) (n : Node) : Option SignatureType :=
  if known : w ∈ SignatureType.words then
    match n, (⟨[],[]⟩ : Elaboration).elementary ⟨default,w⟩ with
    | .elementary _ e, .ok (.elementary _ e') => if e = e' then some ⟨w,[],known⟩ else none
    | .userType _ .address _, _ => if w = "address" then some ⟨w,[],known⟩ else none
    | .userType _ .addressPayable _, _ => if w = "address payable" then some ⟨w,[],known⟩ else none
    | _, _ => none
  else none

def signatureType? : Node → Option SignatureType
  | .arrayType _ type size => do
    let t ← signatureType? type
    let l ← size.arrayLength?
    return { t with lengths := t.lengths ++ [l] }
  | n => n.code {} |>.toOption.bind n.elementaryType?

variable {n : Node}

variable {t : SignatureType}

theorem isLength_of_arrayLength? {l : Option ArrayLength} (h : n.arrayLength? = some l) : IsLength l n := by
  unfold arrayLength? at h
  split at h
  next =>
    obtain rfl := Option.some.inj h
    rfl
  next i value hexadecimal digits =>
    obtain ⟨m,found,h⟩ := Option.bind_eq_some_iff.1 h
    split_ifs at h with same
    obtain rfl := Option.some.inj h
    obtain ⟨rfl,rfl⟩ := Numeral.eq_of_ofDigits? found
    exact ⟨i,by rw [same]⟩
  next i j x =>
    split_ifs at h with name
    obtain rfl := Option.some.inj h
    exact ⟨i,j,rfl⟩
  next => cases h

theorem isElementary_of_type {w : String} (h : n.elementaryType? w = some t) :
    IsType t.word t.lengths n := by
  unfold elementaryType? at h
  split at h
  next known =>
    split at h
    next i e j e' found =>
      split at h
      next same =>
        obtain rfl := Option.some.inj h
        subst same
        exact .word ⟨j,found⟩
      next => cases h
    next =>
      split at h
      next address =>
        obtain rfl := Option.some.inj h
        exact .word address
      next => cases h
    next =>
      split at h
      next address =>
        obtain rfl := Option.some.inj h
        exact .word address
      next => cases h
    next => cases h
  next => cases h

theorem isType_of_signatureType? (h : n.signatureType? = some t) : IsType t.word t.lengths n := by
  fun_induction signatureType? n generalizing t with
  | case1 i _ _ ih =>
    obtain ⟨t',found,h⟩ := Option.bind_eq_some_iff.1 h
    obtain ⟨l,length,h⟩ := Option.bind_eq_some_iff.1 h
    obtain rfl := Option.some.inj h
    exact .array i (ih found) (isLength_of_arrayLength? length)
  | case2 =>
    obtain ⟨w,-,found⟩ := Option.bind_eq_some_iff.1 h
    exact isElementary_of_type found

end Node

end Confidential
