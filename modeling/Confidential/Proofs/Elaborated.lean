import Confidential.Proofs.Numbering
import Confidential.Proofs.WrittenExpressions

/-!
Elaboration looks at places only to copy them: expressions of names, numbers, operators and
parentheses that differ in places only are elaborated to the same tree, numbers and places apart, or
both refused.
-/

namespace Confidential

open List

namespace Outcome

variable {α β γ δ : Type} {f : α → γ} {g : β → δ} {x y : Outcome α}

/-- Both computations fail, or both give results that `f` does not tell apart. -/
def Matches (f : α → γ) (x y : Outcome α) : Prop :=
  x.toOption.map f = y.toOption.map f

namespace Matches

variable {a b : α}

theorem ok (h : f a = f b) : Matches f (.ok a) (.ok b) :=
  congrArg some h

theorem pure (h : f a = f b) : Matches f (pure a) (pure b) :=
  congrArg some h

theorem none (hx : x.toOption = none) (hy : y.toOption = none) : Matches f x y := by
  rw [Matches,hx,hy]

theorem bind {k l : α → Outcome β} (h : Matches f x y) (next : ∀ a b, f a = f b → Matches g (k a) (l b)) :
    Matches g (x >>= k) (y >>= l) := by
  cases x with
  | error =>
    cases y with
    | error => rfl
    | ok => simp [Matches,Except.toOption] at h
  | ok a =>
    cases y with
    | error => simp [Matches,Except.toOption] at h
    | ok b => exact next a b (Option.some.inj h)

theorem check {c c' : Bool} {r r' : Outcome Unit} {k l : Unit → Outcome β} (same : c = c') (hr : r.toOption = Option.none)
    (hr' : r'.toOption = Option.none) (next : Matches g (k ()) (l ())) :
    Matches g (if c = true then r >>= k else k ()) (if c' = true then r' >>= l else l ()) := by
  subst same
  cases r with
  | ok => simp [Except.toOption] at hr
  | error =>
    cases r' with
    | ok => simp [Except.toOption] at hr'
    | error =>
      split
      · rfl
      · exact next

theorem exists_ok (h : Matches f x y) (hy : y = .ok b) : ∃ a, x = .ok a ∧ f a = f b := by
  subst hy
  cases x with
  | error => simp [Matches,Except.toOption] at h
  | ok a => exact ⟨a,rfl,Option.some.inj h⟩

end Matches

end Outcome

namespace Node

theorem shape_congr {n m : Node} (parts : n.parts.map shape = m.parts.map shape)
    (frame : ∀ ps, (n.withParts ps).withInfo {} = (m.withParts ps).withInfo {}) : n.shape = m.shape := by
  rw [shape_eq,shape_eq m,parts,frame]

theorem shape_withInfo (n : Node) (i : Info) : (n.withInfo i).shape = n.shape := by
  rw [shape_eq,shape_eq n,parts_withInfo,withParts_withInfo,withInfo_withInfo]

end Node

namespace Elaboration

open Outcome

variable (cx cx' : Elaboration)

theorem toOption_refuse {α : Type} (p : Pos) (message : String) : (cx.refuse p message : Outcome α).toOption = none := by
  unfold refuse
  cases Report.location p.line p.column cx.lines none none none <;> rfl

theorem matches_identifier {w w' : Surface.Word} (same : w.text = w'.text) :
    Matches Node.shape (cx.identifier w) (cx'.identifier w') := by
  unfold identifier
  rw [same]
  split
  · exact .none (toOption_refuse cx _ _) (toOption_refuse cx' _ _)
  · split
    · exact .none (toOption_refuse cx _ _) (toOption_refuse cx' _ _)
    · exact .ok (Node.shape_congr rfl fun _ => rfl)

theorem matches_number (i j : Info) (hexadecimal : Bool) (digits : String) :
    Matches Node.shape (number i hexadecimal digits) (number j hexadecimal digits) := by
  unfold number
  dsimp only
  generalize (if hexadecimal then Text.natural? 16 (digits.toList.drop 2) else Text.natural? 10 digits.toList) = value?
  cases value? with
  | none => exact .none rfl rfl
  | some =>
    dsimp only
    split
    · exact .ok (Node.shape_congr rfl fun _ => rfl)
    · exact .none rfl rfl

theorem matches_operation (p q : Pos) (i j : Info) (op : String) {ns ms : List Node} (h : ns.map Node.shape = ms.map Node.shape) :
    Matches Node.shape (operation p i op ns) (operation q j op ms) := by
  unfold operation
  refine Matches.bind (f := id) rfl fun op op' same => .pure ?_
  obtain rfl : op = op' := same
  refine Node.shape_congr ?_ fun _ => rfl
  have arguments : (Node.arguments {} ns false).shape = (Node.arguments {} ms false).shape := Node.shape_congr h fun _ => rfl
  have builtin : (Node.builtin i op).shape = (Node.builtin j op).shape := Node.shape_congr rfl fun _ => rfl
  simp only [Node.parts,map_cons,map_nil,arguments,builtin]

end Elaboration

namespace Surface

open Elaboration Outcome

variable (cx cx' : Elaboration)

theorem Expr.toNode_group (top : Bool) (p : Pos) (e : Expr) :
    (Expr.tuple p [some e]).toNode cx top = (do return .tuple (infoAt p) [← e.toNode cx false]) := by
  rw [Expr.toNode,Expr.toElements,Expr.toElements]
  cases e.toNode cx false <;> rfl

theorem Expr.toNode_of_still {e e' : Expr} (fits : e.fits) (same : e'.still = e.still) (top : Bool) :
    Matches Node.shape (e'.toNode cx top) (e.toNode cx' top) := by
  cases e with
  | unary =>
    cases e' with
    | unary =>
      simp only [Expr.still,Expr.unary.injEq,Word.still,Word.mk.injEq,true_and] at same
      simp only [Expr.fits,Bool.and_eq_true] at fits
      rw [Expr.toNode,Expr.toNode,same.1]
      exact (Expr.toNode_of_still fits.1.2 same.2 false).bind fun n n' hn =>
        matches_operation _ _ _ _ _ (by simp only [map_cons,map_nil,hn])
    | _ => simp [Expr.still] at same
  | binary =>
    cases e' with
    | binary =>
      simp only [Expr.still,Expr.binary.injEq,Word.still,Word.mk.injEq,true_and] at same
      simp only [Expr.fits,Bool.and_eq_true] at fits
      rw [Expr.toNode,Expr.toNode,same.1]
      exact (Expr.toNode_of_still fits.1.1.1.1 same.2.1 false).bind fun l l' hl =>
        (Expr.toNode_of_still fits.1.1.1.2 same.2.2 false).bind fun r r' hr =>
          matches_operation _ _ _ _ _ (by simp only [map_cons,map_nil,hl,hr])
    | _ => simp [Expr.still] at same
  | conditional =>
    cases e' with
    | conditional =>
      simp only [Expr.still,Expr.conditional.injEq,true_and] at same
      simp only [Expr.fits,Bool.and_eq_true] at fits
      rw [Expr.toNode,Expr.toNode]
      exact (Expr.toNode_of_still fits.1.1.1.1 same.1 false).bind fun c c' hc =>
        (Expr.toNode_of_still fits.1.1.1.2 same.2.1 false).bind fun y y' hy =>
          (Expr.toNode_of_still fits.1.1.2 same.2.2 false).bind fun n n' hn =>
            matches_operation _ _ _ _ _ (by simp only [map_cons,map_nil,hc,hy,hn])
    | _ => simp [Expr.still] at same
  | assign =>
    cases e' with
    | assign =>
      simp only [Expr.still,Expr.assign.injEq,Word.still,Word.mk.injEq,true_and] at same
      simp only [Expr.fits,Bool.and_eq_true] at fits
      rw [Expr.toNode,Expr.toNode]
      refine .check rfl (toOption_refuse cx _ _) (toOption_refuse cx' _ _) ?_
      refine (Expr.toNode_of_still fits.1.1.1.2 same.2.1 false).bind fun l l' hl =>
        (Expr.toNode_of_still fits.1.1.2 same.2.2 false).bind fun r r' hr => ?_
      dsimp only
      rw [same.1]
      split
      · exact .pure (Node.shape_congr (by simp only [Node.parts,map_cons,map_nil,hl,hr]) fun _ => rfl)
      · refine (Expr.toNode_of_still fits.1.1.1.2 same.2.1 false).bind fun x x' hx =>
          (matches_operation _ _ _ _ _ (by simp only [map_cons,map_nil,hx,hr])).bind fun v v' hv => .pure ?_
        exact Node.shape_congr (by simp only [Node.parts,map_cons,map_nil,hl,hv]) fun _ => rfl
    | _ => simp [Expr.still] at same
  | tuple =>
    obtain ⟨e,rfl⟩ := Expr.components_of_fits fits
    cases e' with
    | tuple =>
      simp only [Expr.still,Expr.stillPlaces_eq,Expr.tuple.injEq,true_and] at same
      obtain ⟨c,rfl,filled⟩ := map_eq_singleton_iff.1 same
      obtain ⟨e',rfl,inner⟩ := Option.map_eq_some_iff.1 filled
      rw [Expr.toNode_group,Expr.toNode_group]
      exact (Expr.toNode_of_still (e := e) fits inner false).bind fun n n' hn =>
        .pure (Node.shape_congr (congrArg (fun x => [x]) hn) fun _ => rfl)
    | _ => simp [Expr.still] at same
  | name =>
    cases e' with
    | name =>
      simp only [Expr.still,Expr.name.injEq,Word.still,Word.mk.injEq,true_and] at same
      rw [Expr.toNode,Expr.toNode]
      exact (matches_identifier cx cx' same).bind fun n n' hn => .pure (Node.shape_congr (congrArg (fun x => [x]) hn) fun _ => rfl)
    | _ => simp [Expr.still] at same
  | number =>
    cases e' with
    | number =>
      obtain ⟨-,rfl,rfl⟩ := Expr.number.inj same
      exact matches_number _ _ _ _
    | _ => simp [Expr.still] at same
  | _ => simp [Expr.fits] at fits
termination_by sizeOf e

end Surface
end Confidential
