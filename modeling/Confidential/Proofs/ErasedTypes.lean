import Confidential.Proofs.SignatureTypes

/-!
The type in a policy is its annotated text with the annotations taken out again.
-/

namespace Confidential

open List

/-- Text of a type between its annotations, or an annotation: an owner behind `@`, a label behind `!`. -/
inductive TypePiece where
  | plain (text : List Char)
  | mark (sign : Char) (name : List Char)

namespace TypePiece

def text : TypePiece → List Char
  | plain cs => cs
  | mark c a => c :: a

def kept : TypePiece → List Char
  | plain cs => cs
  | mark _ _ => []

def name? : TypePiece → Option (List Char)
  | plain _ => none
  | mark _ a => some a

def owner? : TypePiece → Option (List Char)
  | mark '@' a => some a
  | _ => none

def written (ps : List TypePiece) : List Char :=
  ps.flatMap text

/-- The text without the annotations. -/
def solidity (ps : List TypePiece) : List Char :=
  ps.flatMap kept

def owners (ps : List TypePiece) : List (List Char) :=
  ps.filterMap owner?

/-- Of all owners, in the order of the text, the first that a name starts with is the name itself. -/
def Separate (ps : List TypePiece) : Prop :=
  ∀ a ∈ ps.filterMap name?, (owners ps).find? (· <+: a) = some a

instance (ps : List TypePiece) : Decidable (Separate ps) :=
  inferInstanceAs (Decidable (∀ a ∈ ps.filterMap name?, (owners ps).find? (· <+: a) = some a))

end TypePiece

/-- Does a text look as if it named the caller? -/
def Text.seemsCaller (cs : List Char) : Bool :=
  cs == ['m','e'] || (Text.callerIn? cs).isSome

/-- The text has nothing that is written in another way when the owners are gone. -/
structure Text.Settled (cs : List Char) : Prop where
  caller : Text.seemsCaller cs = false
  reveal : Text.revealIn? cs = none
  final : ¬ "    final ".toList <:+: cs

namespace Node

/-- The text of a node that is written alike with annotations and without, if it has only names and points. -/
def plainText? (n : Node) : Option (List Char) :=
  match n.code {}, n.code { solidity := true } with
  | .ok a, .ok b => if a = b ∧ a.toList.all (fun c => Token.isNamePart c || c = '.') then some a.toList else none
  | _, _ => none

def markOf? (sign : Char) (n : Node) : Option (List TypePiece) :=
  match n.code {} with
  | .ok a => if a.toList.all Token.isNamePart then some [.mark sign a.toList] else none
  | _ => none

/-- The size of an array may be any expression without the signs of annotations. -/
def sizeText? (size : Node) : Option (List Char) :=
  if size.isOmitted then some []
  else (size.code {}).toOption.bind fun a => if '@' ∉ a.toList ∧ '!' ∉ a.toList then some a.toList else none

/-- Are the sizes of all arrays written alike with annotations and without? -/
def sizesAlike : Node → Bool
  | .arrayType _ type size => type.sizesAlike && size.code {} = size.code { solidity := true }
  | .mapping _ key _ (.annotated _ value _ _) => key.sizesAlike && value.sizesAlike
  | _ => true

def labelPieces? : Node → Option (List TypePiece)
  | .omitted => some []
  | .identifier i x => markOf? '!' (.identifier i x)
  | _ => none

def ownerPieces? (written : Bool) (owner : Node) : Option (List TypePiece) :=
  if written then owner.markOf? '@' else some []

/-- The pieces of the text of a type: elementary types, named types, arrays and mappings. -/
def typePieces? : Node → Option (List TypePiece)
  | .userType _ .addressPayable _ => some [.plain "address payable".toList]
  | .arrayType _ type size => do
    some ((← typePieces? type) ++ [.plain ('[' :: ((← size.sizeText?) ++ [']']))])
  | .mapping _ key label (.annotated _ value written who) => do
    let k := (← typePieces? key) ++ ((← label.labelPieces?) ++ [.plain " => ".toList])
    some (.plain "mapping(".toList :: (k ++ ((← typePieces? value) ++ ((← ownerPieces? written who) ++ [.plain [')']]))))
  | .elementary i e => (plainText? (.elementary i e)).map fun cs => [.plain cs]
  | .userType i kind path => (plainText? (.userType i kind path)).map fun cs => [.plain cs]
  | _ => none

end Node

/-! ### Replacing -/

namespace Text

variable {piece : List Char}

theorem replaceFrom_skip (piece new xs : List Char) (cs : List Char) :
    replaceFrom piece new xs.length (xs ++ cs) = replaceFrom piece new 0 cs := by
  induction xs with
  | nil => rfl
  | cons _ _ ih => exact ih

theorem replaceFrom_append (full : piece ≠ []) (new cs : List Char) :
    replaceFrom piece new 0 (piece ++ cs) = new ++ replaceFrom piece new 0 cs := by
  cases piece with
  | nil => contradiction
  | cons _ piece =>
    rw [cons_append,replaceFrom,if_pos (by simp)]
    exact congrArg _ (replaceFrom_skip _ _ piece cs)

theorem replaceFrom_cons {c : Char} {cs : List Char} (other : ¬ piece <+: c :: cs) (new : List Char) :
    replaceFrom piece new 0 (c :: cs) = c :: replaceFrom piece new 0 cs := by
  rw [replaceFrom,if_neg (by simpa using other)]

theorem replaceFrom_pass {s : Char} {xs : List Char} (free : s ∉ xs) (o new cs : List Char) :
    replaceFrom (s :: o) new 0 (xs ++ cs) = xs ++ replaceFrom (s :: o) new 0 cs := by
  induction xs with
  | nil => rfl
  | cons _ _ ih =>
    rw [mem_cons,not_or] at free
    rw [cons_append,replaceFrom_cons (by simp [free.1]),ih free.2,cons_append]

theorem toList_replace {piece : String} (full : piece.toList ≠ []) (new s : String) :
    (replace piece new s).toList = replaceFrom piece.toList new.toList 0 s.toList := by
  have filled : piece.isEmpty = false := by simpa using full
  rw [replace,filled,if_neg (by simp),String.toList_ofList]

/-- What replacing does to the number of characters of any kind. -/
theorem exists_count_replace (full : piece ≠ []) (new cs : List Char) : ∃ k,
    (∀ p : Char → Bool, (replaceFrom piece new 0 cs).countP p + k * piece.countP p = cs.countP p + k * new.countP p) ∧
      (piece <:+: cs ↔ 0 < k) ∧ (k = 0 → replaceFrom piece new 0 cs = cs) := by
  induction h : cs.length using Nat.strong_induction_on generalizing cs with
  | _ _ ih =>
    subst h
    by_cases here : piece <+: cs
    · obtain ⟨rest,rfl⟩ := here
      have shorter : rest.length < (piece ++ rest).length := by
        simpa [length_pos_iff] using full
      obtain ⟨k,count,-⟩ := ih _ shorter rest rfl
      refine ⟨k + 1,fun p => ?_,by simp [(prefix_append piece rest).isInfix],by simp⟩
      rw [replaceFrom_append full,countP_append,countP_append]
      have := count p
      grind
    · cases cs with
      | nil => exact ⟨0,by simp [replaceFrom],by simpa [infix_nil] using full,fun _ => rfl⟩
      | cons _ cs =>
        obtain ⟨k,count,found,same⟩ := ih cs.length (by simp) cs rfl
        rw [replaceFrom_cons here]
        refine ⟨k,fun p => ?_,?_,fun zero => by rw [same zero]⟩
        · rw [countP_cons,countP_cons]
          have := count p
          omega
        · rw [infix_cons_iff,← found]
          exact or_iff_right here

end Text

namespace TypePiece

open Token (isNamePart)

variable {s : Char} {a o : List Char} {ps : List TypePiece}

/-! ### Taking out owners -/

/-- Annotations are names, and behind each of them stands a text that starts with a blank or a closing bracket. -/
def Divided : List TypePiece → Prop
  | [] => True
  | plain cs :: ps => '@' ∉ cs ∧ '!' ∉ cs ∧ Divided ps
  | mark c a :: ps => (c = '@' ∨ c = '!') ∧ (∀ x ∈ a, isNamePart x = true) ∧
    (∃ d cs ps', ps = plain (d :: cs) :: ps' ∧ (d = ' ' ∨ d = ')')) ∧ Divided ps

/-- The name `o` is taken out behind the sign `s`. -/
def strip (s : Char) (o : List Char) : TypePiece → TypePiece
  | mark c a => if c = s ∧ o <+: a then plain (a.drop o.length) else mark c a
  | p => p

/-- Every annotation loses the first of the names that it starts with. -/
def reduce (os : List (List Char)) : TypePiece → TypePiece
  | mark c a => match os.find? (· <+: a) with
    | some o => plain (a.drop o.length)
    | none => mark c a
  | p => p

theorem not_mem_name (sign : s = '@' ∨ s = '!') (name : ∀ x ∈ a, isNamePart x) : s ∉ a := by
  intro mem
  obtain rfl | rfl := sign <;> exact absurd (name _ mem) (by decide)

theorem Divided.map_strip (h : Divided ps) (s : Char) (o : List Char) : Divided (ps.map (strip s o)) := by
  induction ps with
  | nil => trivial
  | cons p _ ih =>
    cases p with
    | plain => exact ⟨h.1,h.2.1,ih h.2.2⟩
    | mark _ a =>
      obtain ⟨sign,name,⟨d,cs,ps',rfl,ends⟩,rest⟩ := h
      have name' : ∀ x ∈ a.drop o.length, isNamePart x := fun x hx => name x (mem_of_mem_drop hx)
      rw [map_cons,strip]
      split
      · exact ⟨not_mem_name (.inl rfl) name',not_mem_name (.inr rfl) name',ih rest⟩
      · exact ⟨sign,name,⟨d,cs,_,rfl,ends⟩,ih rest⟩

theorem prefix_iff {cs : List Char} {d : Char} (name : ∀ x ∈ o, isNamePart x) (ends : d = ' ' ∨ d = ')') :
    o <+: a ++ d :: cs ↔ o <+: a := by
  refine ⟨fun h => ?_,fun h => h.trans (prefix_append ..)⟩
  obtain le | le := Nat.le_total o.length a.length
  · exact prefix_of_prefix_length_le h (prefix_append ..) le
  · obtain ⟨t,rfl⟩ := prefix_of_prefix_length_le (prefix_append a (d :: cs)) h le
    cases t with
    | nil => simp
    | cons x =>
      obtain ⟨u,eq⟩ := h
      simp only [append_assoc,cons_append,append_cancel_left_eq,List.cons.injEq] at eq
      have part := name x (by simp)
      rw [eq.1] at part
      obtain rfl | rfl := ends <;> cases part

theorem replace_written (h : Divided ps) (sign : s = '@' ∨ s = '!') (name : ∀ x ∈ o, isNamePart x) :
    Text.replaceFrom (s :: o) [] 0 (written ps) = written (ps.map (strip s o)) := by
  induction ps with
  | nil => rfl
  | cons p _ ih =>
    cases p with
    | plain cs =>
      have free : s ∉ cs := by
        obtain rfl | rfl := sign
        · exact h.1
        · exact h.2.1
      exact (Text.replaceFrom_pass free o [] _).trans (congrArg _ (ih h.2.2))
    | mark c a =>
      obtain ⟨-,own,⟨d,cs,ps',rfl,ends⟩,rest⟩ := h
      have ih := ih rest
      change Text.replaceFrom (s :: o) [] 0 (c :: (a ++ written (plain (d :: cs) :: ps'))) =
        (strip s o (mark c a)).text ++ written ((plain (d :: cs) :: ps').map (strip s o))
      have found : (s :: o) <+: c :: (a ++ written (plain (d :: cs) :: ps')) ↔ c = s ∧ o <+: a := by
        rw [cons_prefix_cons,eq_comm]
        exact and_congr_right fun _ => prefix_iff name ends
      rw [strip,← ih]
      split
      next here =>
        obtain ⟨rfl,b,rfl⟩ := here
        have free : c ∉ b := not_mem_name sign fun x hx => own x (mem_append_right _ hx)
        have split := Text.replaceFrom_append (cons_ne_nil c o) [] (b ++ written (plain (d :: cs) :: ps'))
        rw [Text.replaceFrom_pass free] at split
        simpa [text] using split
      next other =>
        rw [Text.replaceFrom_cons (by simpa [found] using other),Text.replaceFrom_pass (not_mem_name sign own)]
        rfl

theorem ownerIn?_append {xs : List Char} (free : '@' ∉ xs) (cs : List Char) : Text.ownerIn? (xs ++ cs) = Text.ownerIn? cs := by
  induction xs with
  | nil => rfl
  | cons _ _ ih =>
    rw [mem_cons,not_or] at free
    rw [cons_append,Text.ownerIn?]
    · exact ih free.2
    · exact fun eq => free.1 eq.symm

/-- The first owner is found by its sign. -/
theorem ownerIn?_written (h : Divided ps) : Text.ownerIn? (written ps) = (owners ps).head? := by
  induction ps with
  | nil => rfl
  | cons p _ ih =>
    cases p with
    | plain => exact (ownerIn?_append h.1 _).trans (ih h.2.2)
    | mark _ a =>
      obtain ⟨rfl | rfl,own,⟨d,cs,ps',rfl,ends⟩,rest⟩ := h
      · have inside : ∀ x ∈ a, (!(Text.isBlank x || x = ')')) := fun x hx => by
          have other : x ≠ ')' := by
            rintro rfl
            exact absurd (own _ hx) (by decide)
          simp [Text.isBlank_of_isNamePart (own x hx),other]
        have stop : (Text.isBlank d || d = ')') := by
          obtain rfl | rfl := ends <;> decide
        change Text.ownerIn? ('@' :: (a ++ d :: (cs ++ written ps'))) = some a
        rw [Text.ownerIn?,if_pos (any_eq_true.2 ⟨d,by simp,stop⟩),takeWhile_append_of_pos inside,
          takeWhile_cons_of_neg (by simp [stop]),append_nil]
      · have free : '@' ∉ '!' :: a := by simpa using not_mem_name (.inl rfl) own
        exact (ownerIn?_append free _).trans (ih rest)

theorem strip_strip {c : Char} (sign : c = '@' ∨ c = '!') (o a : List Char) :
    strip '!' o (strip '@' o (mark c a)) = if o <+: a then plain (a.drop o.length) else mark c a := by
  obtain rfl | rfl := sign <;> by_cases found : o <+: a <;> simp [strip,found]

theorem owners_map_strip (h : Divided ps) (o : List Char) :
    owners ((ps.map (strip '@' o)).map (strip '!' o)) = (owners ps).filter fun a => ¬ o <+: a := by
  induction ps with
  | nil => rfl
  | cons p _ ih =>
    cases p with
    | plain => exact ih h.2.2
    | mark _ a =>
      have ih := ih h.2.2.2
      rw [map_cons,map_cons,strip_strip h.1]
      by_cases found : o <+: a
      · rw [if_pos found]
        obtain rfl | rfl := h.1
        · exact ih.trans (filter_cons_of_neg (by simpa using found)).symm
        · exact ih
      · rw [if_neg found]
        obtain rfl | rfl := h.1
        · exact (congrArg _ ih).trans (filter_cons_of_pos (by simpa using found)).symm
        · exact ih

theorem reduce_strip (h : Divided ps) (o : List Char) (os : List (List Char)) :
    ((ps.map (strip '@' o)).map (strip '!' o)).map (reduce (os.filter fun a => ¬ o <+: a)) = ps.map (reduce (o :: os)) := by
  induction ps with
  | nil => rfl
  | cons p _ ih =>
    cases p with
    | plain => exact congrArg _ (ih h.2.2)
    | mark c a =>
      have here : reduce (os.filter fun a => ¬ o <+: a) (strip '!' o (strip '@' o (mark c a))) = reduce (o :: os) (mark c a) := by
        rw [strip_strip h.1]
        by_cases found : o <+: a
        · simp [reduce,found]
        · -- an owner that starts with `o` and that `a` starts with would make `a` start with `o`
          have same : (os.filter fun a => ¬ o <+: a).find? (· <+: a) = os.find? (· <+: a) := by
            rw [find?_filter]
            refine find?_congr fun b _ => ?_
            by_cases start : b <+: a
            · have apart : ¬ o <+: b := fun first => found (first.trans start)
              simp [start,apart]
            · simp [start]
          rw [if_neg found,reduce,reduce,same,find?_cons_of_neg (by simpa using found)]
      simp only [map_cons,here,ih h.2.2.2]

theorem name_of_divided (h : Divided ps) : ∀ a ∈ owners ps, ∀ x ∈ a, isNamePart x := by
  induction ps with
  | nil => simp [owners]
  | cons p _ ih =>
    cases p with
    | plain => exact ih h.2.2
    | mark =>
      obtain ⟨rfl | rfl,own,-,rest⟩ := h
      · exact forall_mem_cons.2 ⟨own,ih rest⟩
      · exact ih rest

theorem settle_eraseOwner (h : Divided ps) {fuel : Nat} (enough : (owners ps).length ≤ fuel) :
    Text.settle Text.eraseOwner? fuel (String.ofList (written ps)) = String.ofList (written (ps.map (reduce (owners ps)))) := by
  have void (ps : List TypePiece) : ps.map (reduce []) = ps := by
    refine (map_congr_left fun p _ => ?_).trans (map_id _)
    cases p <;> rfl
  induction fuel generalizing ps with
  | zero =>
    rw [length_eq_zero_iff.1 (Nat.le_zero.1 enough),void]
    rfl
  | succ _ ih =>
    have search := ownerIn?_written h
    cases first : owners ps with
    | nil =>
      rw [Text.settle,Text.eraseOwner?,String.toList_ofList,search,first,void]
      rfl
    | cons o os =>
      have own := name_of_divided h o (by simp [first])
      have erased : Text.eraseOwner? (String.ofList (written ps)) =
          some (String.ofList (written ((ps.map (strip '@' o)).map (strip '!' o)))) := by
        rw [Text.eraseOwner?,String.toList_ofList,search,first,head?_cons,Option.map_some]
        refine congrArg some (String.toList_injective ?_)
        have behind (c : String) : (c ++ String.ofList o).toList = c.toList ++ o := by simp
        rw [Text.toList_replace (by simp),Text.toList_replace (by simp),behind,behind,String.toList_ofList,String.toList_ofList]
        rw [← replace_written (h.map_strip '@' o) (.inr rfl) own,← replace_written h (.inl rfl) own]
        simp only [String.toList_ofList]
        rfl
      have later : owners ((ps.map (strip '@' o)).map (strip '!' o)) = os.filter fun a => ¬ o <+: a := by
        rw [owners_map_strip h,first]
        exact filter_cons_of_neg (by simp)
      have fewer : (os.filter fun a => ¬ o <+: a).length ≤ os.length := length_filter_le ..
      rw [first,length_cons] at enough
      rw [Text.settle,erased,← reduce_strip h,← later]
      exact ih ((h.map_strip ..).map_strip ..) (by rw [later]; omega)

theorem eraseOwners_written (h : Divided ps) :
    Text.eraseOwners (String.ofList (written ps)) = String.ofList (written (ps.map (reduce (owners ps)))) := by
  refine settle_eraseOwner h ?_
  have short : (owners ps).length ≤ (written ps).length := by
    clear h
    induction ps with
    | nil => simp [owners]
    | cons p ps ih =>
      have head : (p.owner?.toList).length ≤ p.text.length := by
        unfold owner?
        split <;> simp [text]
      have split : owners (p :: ps) = p.owner?.toList ++ owners ps := by
        unfold owners
        rw [filterMap_cons]
        cases p.owner? <;> rfl
      rw [split,written,flatMap_cons,length_append,length_append]
      exact Nat.add_le_add head ih
  simpa using Nat.le_succ_of_le short

theorem written_reduce {os : List (List Char)}
    (separate : ∀ a ∈ ps.filterMap name?, os.find? (· <+: a) = some a) : written (ps.map (reduce os)) = solidity ps := by
  rw [written,flatMap_map,solidity]
  refine flatMap_congr fun p hp => ?_
  cases p with
  | plain => rfl
  | mark _ a =>
    rw [reduce,separate a (mem_filterMap.2 ⟨_,hp,rfl⟩)]
    simp [text,kept]

/-- What is left of an annotation. -/
def leftover (os : List (List Char)) : TypePiece → List Char
  | plain _ => []
  | mark c a => (reduce os (mark c a)).text

theorem written_reduce_perm (os : List (List Char)) (ps : List TypePiece) :
    written (ps.map (reduce os)) ~ solidity ps ++ ps.flatMap (leftover os) := by
  induction ps with
  | nil => rfl
  | cons p _ ih =>
    cases p with
    | plain cs => exact (ih.append_left cs).trans (by simp [solidity,kept,leftover])
    | mark c a => exact (ih.append_left _).trans (perm_append_comm_assoc ..)

theorem find?_of_leftover {os : List (List Char)} (nothing : ps.flatMap (leftover os) = []) :
    ∀ a ∈ ps.filterMap name?, os.find? (· <+: a) = some a := by
  intro a mem
  obtain ⟨p,hp,name⟩ := mem_filterMap.1 mem
  have nothing := flatMap_eq_nil_iff.1 nothing p hp
  cases p with
  | plain => cases name
  | mark =>
    cases name
    rw [leftover,reduce] at nothing
    cases found : os.find? (· <+: a) with
    | none => simp [found,text] at nothing
    | some o =>
      have start : o <+: a := by simpa using find?_some found
      have short : a.length ≤ o.length := by simpa [found,text] using nothing
      rw [start.eq_of_length_le short]

theorem count_leftover {c : Char} (name : isNamePart c = false) (owner : c ≠ '@') (label : c ≠ '!') (h : Divided ps)
    (os : List (List Char)) : (ps.flatMap (leftover os)).count c = 0 := by
  induction ps with
  | nil => rfl
  | cons p _ ih =>
    rw [flatMap_cons,count_append]
    cases p with
    | plain => simpa [leftover] using ih h.2.2
    | mark s a =>
      obtain ⟨sign,own,-,rest⟩ := h
      have other : c ∉ a := fun mem => by simp [own c mem] at name
      have here : c ∉ leftover os (mark s a) := by
        rw [leftover,reduce]
        split
        · exact fun mem => other (mem_of_mem_drop mem)
        · obtain rfl | rfl := sign <;> simp [text,owner,label,other]
      rw [count_eq_zero.2 here,ih rest]

end TypePiece

/-! ### The other passes -/

namespace Text

variable {cs : List Char}

theorem settle_cases {step? : String → Option String} {r : String → String → Prop} (trans : ∀ {s t u}, r s t → r t u → r s u)
    (step : ∀ {s t}, step? s = some t → r s t) (fuel : Nat) (s : String) :
    settle step? fuel s = s ∧ (fuel ≠ 0 → step? s = none) ∨ r s (settle step? fuel s) := by
  induction fuel generalizing s with
  | zero => exact .inl ⟨rfl,by simp⟩
  | succ fuel ih =>
    rw [settle]
    cases next : step? s with
    | none => exact .inl ⟨rfl,fun _ => rfl⟩
    | some t =>
      refine .inr ?_
      obtain ⟨same,-⟩ | later := ih t
      · change r s (settle step? fuel t)
        rw [same]
        exact step next
      · exact trans (step next) later

/-- The caller that is found has no `m` next to it. -/
theorem infix_of_callerIn? {b : Char} {a : Option Char} (h : callerIn? cs = some (b,a)) :
    b :: 'm' :: 'e' :: a.toList <:+: cs ∧ b ≠ 'm' ∧ a ≠ some 'm' := by
  induction cs with
  | nil => cases h
  | cons c rest ih =>
    have later (h : callerIn? rest = some (b,a)) := (ih h).imp_left (infix_cons (a := c))
    unfold callerIn? at h
    split at h
    · split at h
      · exact later h
      next word =>
        cases h
        exact ⟨infix_refl _,by rintro rfl; simp [isSmallLetter] at word,by simp⟩
    · split at h
      · exact later h
      next word =>
        cases h
        refine ⟨⟨[],_,rfl⟩,?_,?_⟩
        · rintro rfl
          simp [isSmallLetter] at word
        · rintro ⟨⟩
          simp [isSmallLetter] at word
    · exact later h

theorem toList_writeCaller {s t : String} (h : writeCaller? s = some t) : ∃ b a, callerIn? s.toList = some (b,a) ∧
    t.toList = replaceFrom ([b] ++ ("me".toList ++ a.toList)) ([b] ++ ("msg.sender".toList ++ a.toList)) 0 s.toList := by
  obtain ⟨⟨b,a⟩,found,rfl⟩ := Option.map_eq_some_iff.1 h
  refine ⟨b,a,found,?_⟩
  have after : ((a.map String.singleton).getD "").toList = a.toList := by cases a <;> simp
  rw [toList_replace (by simp)]
  simp [after]

/-- Writing callers in full makes a text longer, and changes the number of no other characters. -/
theorem writeCallers_cases (s : String) : writeCallers s = s ∧ seemsCaller s.toList = false ∨
    seemsCaller s.toList ∧ s.length < (writeCallers s).length ∧
      ∀ q : Char → Bool, "msg.sender".toList.countP q = 0 → (writeCallers s).toList.countP q = s.toList.countP q := by
  have me {q : Char → Bool} (void : "msg.sender".toList.countP q = 0) : q 'm' = false ∧ q 'e' = false := by
    rw [countP_eq_zero] at void
    exact ⟨by simpa using void 'm' (by decide),by simpa using void 'e' (by decide)⟩
  unfold writeCallers
  split
  next alone =>
    obtain rfl := eq_of_beq alone
    refine .inr ⟨by decide,by decide,fun q void => void.trans ?_⟩
    simp [me void]
  next other =>
    refine (settle_cases (r := fun s t => seemsCaller s.toList = true ∧ s.length < t.length ∧
      ∀ q : Char → Bool, "msg.sender".toList.countP q = 0 → t.toList.countP q = s.toList.countP q) ?_ ?_ _ s).imp_left ?_
    · exact fun h h' => ⟨h.1,h.2.1.trans h'.2.1,fun q void => (h'.2.2 q void).trans (h.2.2 q void)⟩
    · intro s t step
      obtain ⟨b,a,found,eq⟩ := toList_writeCaller step
      obtain ⟨k,count,pos,-⟩ := exists_count_replace (show [b] ++ ("me".toList ++ a.toList) ≠ [] by simp)
        ([b] ++ ("msg.sender".toList ++ a.toList)) s.toList
      have pos := pos.1 (infix_of_callerIn? found).1
      rw [← String.length_toList,← String.length_toList,eq]
      simp only [countP_append,Nat.mul_add] at count
      refine ⟨by simp [seemsCaller,found],?_,?_⟩
      · have length := count fun _ => true
        simp only [countP_true] at length
        have : "me".toList.length = 2 ∧ "msg.sender".toList.length = 10 := by decide
        rw [this.1,this.2] at length
        omega
      · intro q void
        have count := count q
        have : "me".toList.countP q = 0 := by simp [me void]
        rw [this,void] at count
        omega
    · rintro ⟨same,stopped⟩
      refine ⟨same,?_⟩
      have void : callerIn? s.toList = none := Option.map_eq_none_iff.1 (stopped (by simp))
      have other : s.toList ≠ ['m','e'] := fun eq => other (beq_iff_eq.2 (String.toList_injective eq))
      simp [seemsCaller,void,other]

theorem le_of_valueEnd? {v w : Nat} (h : valueEnd? cs = some (v,w)) : v ≤ w := by
  fun_induction valueEnd? cs generalizing v w with
  | case1 | case2 => cases h
  | case3 _ _ _ _ _ found ih =>
    cases h
    exact Nat.succ_le_succ (ih found)
  | case4 =>
    obtain ⟨n,-,eq⟩ := Option.map_eq_some_iff.1 h
    cases eq
    exact Nat.zero_le _
  | case5 => cases h

/-- A reveal that is taken out has brackets of its own. -/
theorem revealIn?_eq_some {whole value : String} (h : revealIn? cs = some (whole,value)) :
    whole.toList <:+: cs ∧ value.toList.count '(' < whole.toList.count '(' := by
  induction cs with
  | nil => cases h
  | cons c rest ih =>
    have later (h : revealIn? rest = some (whole,value)) : whole.toList <:+: c :: rest ∧ _ :=
      (ih h).imp_left infix_cons
    unfold revealIn? at h
    dsimp only at h
    split at h
    next start =>
      split at h
      next v w found =>
        cases h
        obtain ⟨inner,eq⟩ := isPrefixOf_iff_prefix.1 start
        have behind : (c :: rest).drop "reveal(".toList.length = inner := by rw [← eq,drop_left]
        rw [behind] at found ⊢
        have fewer := (take_sublist_take_left (l := inner) (le_of_valueEnd? found)).count_le '('
        simp only [String.toList_ofList,count_append]
        constructor
        · rw [← eq]
          exact ((prefix_append_right_inj _).2 ( take_prefix ..)).isInfix
        · have : List.count '(' "reveal(".toList = 1 := by decide
          omega
      next => exact later h
    next => exact later h

theorem count_eraseReveal {s t : String} (h : eraseReveal? s = some t) :
    revealIn? s.toList ≠ none ∧ t.toList.count '(' < s.toList.count '(' := by
  obtain ⟨⟨whole,value⟩,found,rfl⟩ := Option.map_eq_some_iff.1 h
  obtain ⟨inside,fewer⟩ := revealIn?_eq_some found
  have filled : whole.toList ≠ [] := by
    rintro nil
    simp [nil] at fewer
  obtain ⟨k,count,there,-⟩ := exists_count_replace filled value.toList s.toList
  have count := count (· == '(')
  have pos := there.1 inside
  refine ⟨by simp [found],?_⟩
  rw [toList_replace filled]
  simp only [← count_eq_countP] at count
  nlinarith

theorem eraseReveals_cases (s : String) : eraseReveals s = s ∧ revealIn? s.toList = none ∨
    revealIn? s.toList ≠ none ∧ (eraseReveals s).toList.count '(' < s.toList.count '(' := by
  refine (settle_cases (r := fun s t => revealIn? s.toList ≠ none ∧ t.toList.count '(' < s.toList.count '(') ?_
    count_eraseReveal _ s).imp_left (And.imp_right fun stopped => Option.map_eq_none_iff.1 (stopped (by simp)))
  exact fun h h' => ⟨h.1,h'.2.trans h.2⟩

end Text

/-! ### Types -/

namespace TypePiece

theorem eraseAnnotations_written_iff {ps : List TypePiece} (h : Divided ps) :
    Text.eraseAnnotations (String.ofList (written ps)) = String.ofList (solidity ps) ↔
      Separate ps ∧ Text.Settled (solidity ps) := by
  rw [Text.eraseAnnotations,eraseOwners_written h]
  obtain ⟨e,erased,eq⟩ : ∃ e : String, e.toList = written (ps.map (reduce (owners ps))) ∧ String.ofList _ = e :=
    ⟨_,String.toList_ofList,rfl⟩
  obtain ⟨t,pure,eq'⟩ : ∃ t : String, t.toList = solidity ps ∧ String.ofList _ = t := ⟨_,String.toList_ofList,rfl⟩
  rw [eq,eq',← pure]
  have start := Text.writeCallers_cases e
  have reveal := Text.eraseReveals_cases (Text.writeCallers e)
  generalize Text.writeCallers e = w at start reveal
  generalize Text.eraseReveals w = r at reveal
  obtain ⟨k,count,found,same⟩ :=
    Text.exists_count_replace (show "    final ".toList ≠ [] by decide) "    ".toList r.toList
  rw [← Text.toList_replace (by decide)] at same
  simp only [← Text.toList_replace (show "    final ".toList ≠ [] by decide)] at count
  constructor
  · intro last
    rw [last] at count same
    have left := written_reduce_perm (owners ps) ps
    rw [← erased,← pure] at left
    have kept {c : Char} (name : Token.isNamePart c = false) (owner : c ≠ '@') (label : c ≠ '!')
        (sender : "msg.sender".toList.countP (· == c) = 0) : w.toList.count c = t.toList.count c := by
      have same := left.count_eq c
      rw [count_append,count_leftover name owner label h] at same
      obtain ⟨rfl,-⟩ | ⟨-,-,counts⟩ := start
      · exact same
      · exact (counts _ sender).trans same
    have opened := kept (c := '(') (by decide) (by decide) (by decide) (by decide)
    have blank := kept (c := ' ') (by decide) (by decide) (by decide) (by decide)
    have brackets := count (· == '(')
    have blanks := count (· == ' ')
    have four : "    final ".toList.count '(' = 0 ∧ "    ".toList.count '(' = 0 ∧ "    final ".toList.count ' ' = 5 ∧
      "    ".toList.count ' ' = 4 := by decide
    simp only [← count_eq_countP,four] at brackets blanks
    obtain ⟨rfl,noReveal⟩ | ⟨-,fewer⟩ := reveal
    · have void : k = 0 := by omega
      obtain rfl : t = r := String.toList_injective (same void)
      have length := left.length_eq
      rw [length_append,String.length_toList,String.length_toList] at length
      obtain ⟨rfl,noCaller⟩ | ⟨-,longer,-⟩ := start
      · have nothing : ps.flatMap (leftover (owners ps)) = [] := length_eq_zero_iff.1 (by omega)
        exact ⟨find?_of_leftover nothing,noCaller,noReveal,fun inside => absurd (found.1 inside) (by omega)⟩
      · omega
    · omega
  · rintro ⟨separate,noCaller,noReveal,noFinal⟩
    obtain rfl : e = t := String.toList_injective (by rw [erased,written_reduce separate,pure])
    obtain ⟨rfl,-⟩ | ⟨caller,-⟩ := start
    · obtain ⟨rfl,-⟩ | ⟨reveal,-⟩ := reveal
      · exact String.toList_injective (same (Nat.eq_zero_of_not_pos fun pos => noFinal (found.2 pos)))
      · exact absurd noReveal reveal
    · simp [noCaller] at caller

theorem Divided.append {ps qs : List TypePiece} (h : Divided ps) (h' : Divided qs) : Divided (ps ++ qs) := by
  induction ps with
  | nil => exact h'
  | cons p _ ih =>
    cases p with
    | plain => exact ⟨h.1,h.2.1,ih h.2.2⟩
    | mark =>
      obtain ⟨sign,own,⟨d,cs,ps',rfl,ends⟩,rest⟩ := h
      exact ⟨sign,own,⟨d,cs,_,rfl,ends⟩,ih rest⟩

end TypePiece

namespace Node

open TypePiece

variable {n : Node}

variable {cs : List Char} {c : Char} {ls os ps : List TypePiece} {label who : Node} {marked : Bool}

theorem plainText?_eq_some (h : n.plainText? = some cs) : n.code {} = .ok (String.ofList cs) ∧
    n.code { solidity := true } = .ok (String.ofList cs) ∧ ∀ x ∈ cs, Token.isNamePart x ∨ x = '.' := by
  unfold plainText? at h
  split at h
  next a b first second =>
    split_ifs at h with same
    obtain ⟨rfl,names⟩ := same
    cases h
    simp_all
  next => cases h

theorem markOf?_eq_some {l : List TypePiece} (h : n.markOf? c = some l) :
    ∃ a : String, n.code {} = .ok a ∧ l = [.mark c a.toList] ∧ ∀ x ∈ a.toList, Token.isNamePart x := by
  unfold markOf? at h
  split at h
  next a code =>
    split_ifs at h with names
    cases h
    exact ⟨a,code,rfl,by simpa using names⟩
  next => cases h

/-- The pieces are what a type is written with. -/
structure Writes (n : Node) (ps : List TypePiece) : Prop where
  annotated : n.code {} = .ok (String.ofList (written ps))
  solidity : n.sizesAlike → n.code { solidity := true } = .ok (String.ofList (TypePiece.solidity ps))
  divided : Divided ps

theorem writes_plain (h : n.plainText? = some cs) : n.Writes [.plain cs] := by
  obtain ⟨code,code',names⟩ := plainText?_eq_some h
  have other {c : Char} (name : Token.isNamePart c = false) (point : c ≠ '.') : c ∉ cs := by
    intro mem
    obtain part | rfl := names c mem
    · simp [name] at part
    · exact point rfl
  exact ⟨by simpa [written,TypePiece.text] using code,fun _ => by simpa [TypePiece.solidity,kept] using code',
    other (by decide) (by decide),other (by decide) (by decide),trivial⟩

theorem sizeText?_eq_some {size : Node} (h : size.sizeText? = some cs) :
    (size = .omitted ∧ cs = [] ∨ size ≠ .omitted ∧ size.code {} = .ok (String.ofList cs)) ∧ '@' ∉ cs ∧ '!' ∉ cs := by
  unfold sizeText? at h
  split_ifs at h with omitted
  · cases h
    cases size <;> cases omitted
    simp
  · obtain ⟨a,code,h⟩ := Option.bind_eq_some_iff.1 h
    split_ifs at h with free
    cases h
    refine ⟨.inr ⟨by rintro rfl; exact omitted rfl,?_⟩,free⟩
    cases found : size.code {} with
    | error => simp [found,Except.toOption] at code
    | ok => simpa [found,Except.toOption] using code

theorem Writes.array {t : Node} (h : t.Writes ps) {size : Node} (sized : size.sizeText? = some cs)
    (i : Info) : Writes (.arrayType i t size) (ps ++ [.plain ('[' :: (cs ++ [']']))]) := by
  obtain ⟨length,owner,label⟩ := sizeText?_eq_some sized
  have code {style : Style} {text : List Char} (element : t.code style = .ok (String.ofList text))
      (length : size = .omitted ∧ cs = [] ∨ size ≠ .omitted ∧ size.code style = .ok (String.ofList cs)) :
      Node.code style (.arrayType i t size) = .ok (String.ofList (text ++ '[' :: (cs ++ [']']))) := by
    obtain ⟨rfl,rfl⟩ | ⟨given,length⟩ := length
    · refine bind_ok.2 ⟨_,element,congrArg Except.ok (String.toList_injective ?_)⟩
      simp
    · rw [SignatureType.code_arrayType given]
      refine bind_ok.2 ⟨_,element,bind_ok.2 ⟨_,length,congrArg Except.ok (String.toList_injective ?_)⟩⟩
      simp
  refine ⟨?_,fun alike => ?_,h.divided.append ⟨by simpa using owner,by simpa using label,trivial⟩⟩
  · simpa [written,TypePiece.text] using code h.annotated length
  · rw [sizesAlike,Bool.and_eq_true,decide_eq_true_eq] at alike
    rw [alike.2] at length
    simpa [TypePiece.solidity,kept] using code (h.solidity alike.1) length

theorem divided_mark {d : Char} {a : List Char} (sign : c = '@' ∨ c = '!') (name : ∀ x ∈ a, Token.isNamePart x)
    (ends : d = ' ' ∨ d = ')') (owner : '@' ∉ d :: cs) (label : '!' ∉ d :: cs) : Divided [.mark c a,.plain (d :: cs)] :=
  ⟨sign,name,⟨d,cs,[],rfl,ends⟩,owner,label,trivial⟩

theorem code_labelled (h : label.labelPieces? = some ls) (i : Info) (key value : Node) :
    Node.code {} (.mapping i key label value) = (do
      let k ← key.code {}
      let v ← value.code {}
      return "mapping(" ++ k ++ String.ofList (written ls) ++ " => " ++ v ++ ")") ∧
    TypePiece.solidity ls = [] ∧ Divided (ls ++ [.plain " => ".toList]) := by
  unfold labelPieces? at h
  split at h
  · cases h
    exact ⟨rfl,rfl,by decide,by decide,trivial⟩
  next j x =>
    obtain ⟨a,code,rfl,names⟩ := markOf?_eq_some h
    cases code
    refine ⟨?_,rfl,divided_mark (.inr rfl) names (.inl rfl) (by decide) (by decide)⟩
    have text : String.ofList (written [.mark '!' x.toList]) = "!" ++ x := String.toList_injective (by simp [written,TypePiece.text])
    rw [text]
    rfl
  · cases h

theorem code_owned (h : ownerPieces? marked who = some os) (i : Info) (value : Node) :
    Node.code {} (.annotated i value marked who) = (do return (← value.code {}) ++ String.ofList (written os)) ∧
    Node.code { solidity := true } (.annotated i value marked who) = value.code { solidity := true } ∧
    TypePiece.solidity os = [] ∧ Divided (os ++ [.plain [')']]) := by
  have plain : Node.code { solidity := true } (.annotated i value marked who) = value.code { solidity := true } := bind_pure _
  unfold ownerPieces? at h
  split_ifs at h with owned
  · obtain ⟨a,code,rfl,names⟩ := markOf?_eq_some h
    refine ⟨?_,plain,rfl,divided_mark (.inl rfl) names (.inr rfl) (by decide) (by decide)⟩
    have text : String.ofList (written [.mark '@' a.toList]) = "@" ++ a := String.toList_injective (by simp [written,TypePiece.text])
    subst owned
    change (do
      let t ← value.code {}
      return t ++ "@" ++ (← who.code {})) = _
    rw [code,text]
    cases value.code {} <;> simp [bind,Except.bind,pure,Except.pure,String.append_assoc]
  · cases h
    refine ⟨?_,plain,rfl,by decide,by decide,trivial⟩
    rw [Bool.not_eq_true] at owned
    subst owned
    have same : Node.code {} (.annotated i value false who) = value.code {} := bind_pure _
    rw [same]
    cases value.code {} <;> simp [bind,Except.bind,pure,Except.pure,written]

theorem Writes.mapping {key value : Node} {ks vs : List TypePiece} (hk : key.Writes ks)
    (hv : value.Writes vs) (labelled : label.labelPieces? = some ls) (owned : ownerPieces? marked who = some os) (i j : Info) :
    Writes (.mapping i key label (.annotated j value marked who)) (.plain "mapping(".toList :: ((ks ++ (ls ++ [.plain " => ".toList])) ++
      (vs ++ (os ++ [.plain [')']])))) := by
  obtain ⟨label,noLabel,divided⟩ := code_labelled labelled i key (.annotated j value marked who)
  obtain ⟨owner,pure,noOwner,divided'⟩ := code_owned owned j value
  have solid : TypePiece.solidity (.plain "mapping(".toList :: ((ks ++ (ls ++ [.plain " => ".toList])) ++ (vs ++ (os ++ [.plain [')']])))) =
      "mapping(".toList ++ (TypePiece.solidity ks ++ (" => ".toList ++ (TypePiece.solidity vs ++ [')']))) := by
    simp only [TypePiece.solidity] at noLabel noOwner
    simp [TypePiece.solidity,kept,noLabel,noOwner]
  refine ⟨?_,fun alike => ?_,by decide,by decide,(hk.divided.append divided).append (hv.divided.append divided')⟩
  · rw [label,owner,hk.annotated,hv.annotated]
    refine congrArg Except.ok (String.toList_injective ?_)
    simp [written,TypePiece.text]
  · rw [sizesAlike,Bool.and_eq_true] at alike
    refine bind_ok.2 ⟨_,hk.solidity alike.1,bind_ok.2 ⟨_,pure.trans (hv.solidity alike.2),?_⟩⟩
    refine congrArg Except.ok (String.toList_injective ?_)
    rw [solid]
    simp

theorem writes_of_typePieces? (h : n.typePieces? = some ps) : n.Writes ps := by
  fun_induction typePieces? n generalizing ps with
  | case1 =>
    cases h
    exact ⟨rfl,fun _ => rfl,by simp [Divided]⟩
  | case2 i _ _ ih =>
    obtain ⟨t,found,h⟩ := Option.bind_eq_some_iff.1 h
    obtain ⟨cs,sized,h⟩ := Option.bind_eq_some_iff.1 h
    cases h
    exact (ih found).array sized i
  | case3 i _ _ j _ _ _ ihk ihv =>
    obtain ⟨ks,keyed,h⟩ := Option.bind_eq_some_iff.1 h
    obtain ⟨ls,labelled,h⟩ := Option.bind_eq_some_iff.1 h
    obtain ⟨vs,valued,h⟩ := Option.bind_eq_some_iff.1 h
    obtain ⟨os,owned,h⟩ := Option.bind_eq_some_iff.1 h
    cases h
    exact (ihk keyed).mapping (ihv valued) labelled owned i j
  | case4 =>
    obtain ⟨cs,plain,rfl⟩ := Option.map_eq_some_iff.1 h
    exact writes_plain plain
  | case5 =>
    obtain ⟨cs,plain,rfl⟩ := Option.map_eq_some_iff.1 h
    exact writes_plain plain
  | case6 => cases h

end Node

open TypePiece

/-- The text of a type in a policy is what the annotated text becomes when every label and owner has lost the first of
the owners that it starts with, and when the caller, reveals and final variables are rewritten. Where the sizes of
arrays are written alike with annotations and without, this is the Solidity text if and only if every label and owner
is the first of the owners that it starts with, and the Solidity text has nothing to rewrite. -/
theorem erased_type_iff {n : Node} {ps : List TypePiece} (h : n.typePieces? = some ps) :
    Text.eraseOwners <$> n.code {} = .ok (String.ofList (written (ps.map (reduce (owners ps))))) ∧
      (n.sizesAlike → (∃ text, n.code { solidity := true } = .ok text ∧ text.toList = solidity ps) ∧
        (Text.eraseAnnotations <$> n.code {} = n.code { solidity := true } ↔
          Separate ps ∧ Text.Settled (solidity ps))) := by
  obtain ⟨annotated,plain,divided⟩ := Node.writes_of_typePieces? h
  refine ⟨?_,fun alike => ⟨⟨_,plain alike,String.toList_ofList⟩,?_⟩⟩
  · rw [annotated]
    exact congrArg Except.ok (eraseOwners_written divided)
  · rw [annotated,plain alike,← eraseAnnotations_written_iff divided]
    exact iff_of_eq (Except.ok.injEq _ _)

theorem exists_of_any {x : Outcome Node} {P : Node → List TypePiece → Prop} [∀ n, DecidablePred (P n)]
    (h : x.toOption.any fun n => n.typePieces?.any fun ps => decide (P n ps)) :
    ∃ n ps, x = .ok n ∧ n.typePieces? = some ps ∧ P n ps := by
  cases x with
  | error => cases h
  | ok n =>
    obtain ⟨ps,found,holds⟩ : ∃ ps, n.typePieces? = some ps ∧ P n ps := by simpa [Except.toOption,Option.any_eq_true] using h
    exact ⟨n,ps,rfl,found,holds⟩

/-- A label that is used as an owner goes, one that is not stays. -/
theorem unusedLabel_kept : ∃ n m ps qs, Source.piece "mapping(address!x => mapping(uint => A.B@me)[2 * k]@x)" = .ok n ∧
    n.typePieces? = some ps ∧ Text.eraseAnnotations <$> n.code {} = n.code { solidity := true } ∧
    Source.piece "mapping(address!x => uint)" = .ok m ∧ m.typePieces? = some qs ∧
    Text.eraseAnnotations <$> m.code {} ≠ m.code { solidity := true } := by
  obtain ⟨n,ps,piece,pieces,alike,separate,caller,reveal,final⟩ :=
    exists_of_any (x := Source.piece "mapping(address!x => mapping(uint => A.B@me)[2 * k]@x)")
      (P := fun n ps => n.sizesAlike ∧ Separate ps ∧ Text.seemsCaller (solidity ps) = false ∧
        Text.revealIn? (solidity ps) = none ∧ ¬ "    final ".toList <:+: solidity ps) (by decide +kernel)
  obtain ⟨m,qs,piece',pieces',alike',kept⟩ :=
    exists_of_any (x := Source.piece "mapping(address!x => uint)") (P := fun m qs => m.sizesAlike ∧ ¬ Separate qs)
      (by decide +kernel)
  exact ⟨n,m,ps,qs,piece,pieces,((erased_type_iff pieces).2 alike).2.2 ⟨separate,caller,reveal,final⟩,piece',pieces',
    fun same => kept (((erased_type_iff pieces').2 alike').2.1 same).1⟩

end Confidential
