import Confidential.Proofs.FlatSources
import Confidential.Proofs.Roles

/-!
Trees made from concrete syntax are raw: their nodes have roles that belong to their places, and no
numbers yet.
-/

namespace Confidential

open List Node Outcome

namespace Elaboration

def values : List Role :=
  [.expression,.typeName]

def types : List Role :=
  [.typeName,.type]

def RawParameters (ps : Option (List Node)) : Prop :=
  ∀ n ∈ ps.getD [], n.RawAs [.parameter]

/-- The roles of expressions. Only at the top of a statement an expression may assign. -/
def expressions (top : Bool) : List Role :=
  if top then [.expression,.typeName,.simpleStatement] else values

variable {cx : Elaboration} {α : Type} {P : α → Prop}

variable {p : Pos} {message : String} {w : Surface.Word}

theorem yields_refuse : Yields P (cx.refuse p message) := by
  intro a ha
  simp [refuse,bind_ok] at ha

theorem yields_refused {β : Type} {f : β → Outcome α} : Yields P (cx.refuse p message >>= f) :=
  (yields_refuse (P := fun _ => False)).bind fun _ h => h.elim

theorem yields_guard {β : Type} {c : Prop} [Decidable c] {f : β → Outcome α} {x : Outcome α} (hx : Yields P x) :
    Yields P (if c then cx.refuse p message >>= f else x) := by
  split
  · exact yields_refused
  · exact hx

theorem yields_identifier : Yields (RawAs [.label]) (cx.identifier w) := by
  unfold identifier
  split
  · exact yields_refuse
  next start =>
    split
    · exact yields_refuse
    next stop => exact .ok (rawAs_identifier (by simp_all [isReserved]) rfl)

theorem yields_optional {w : Option Surface.Word} :
    Yields (RawAs [.empty,.label]) (cx.optionalIdentifier w) := by
  cases w with
  | none => exact .ok (rawAs_omitted.mono (by decide))
  | some => exact yields_identifier.mono fun _ h => h.mono (by decide)

theorem yields_elementary : Yields (RawAs [.typeName]) (cx.elementary w) := by
  have named (i : Info) (hi : i.isFresh) (x : Outcome Elementary) :
      Yields (RawAs [.typeName]) (do return .elementary i (← x)) :=
    .skip fun t => .pure (rawAs_leaf hi)
  have address (i : Info) (hi : i.isFresh) (kind : UserKind) (name : String) (allowed : isReserved name = false) :
      (Node.userType i kind [.identifier {} name]).RawAs [.typeName] :=
    rawAs_one (rawAs_identifier (i := {}) allowed) hi
  simp only [elementary]
  repeat' split
  · exact .pure (address _ rfl _ _ (by decide))
  · exact .pure (address _ rfl _ _ (by decide))
  · exact .pure rawAs_leaf
  · exact named _ rfl _
  · exact named _ rfl _
  · exact named _ rfl _
  · exact .pure rawAs_leaf
  · exact yields_refused
  · exact yields_refuse

theorem yields_number {i : Info} (hi : i.isFresh) {hexadecimal : Bool} {digits : String} :
    Yields (RawAs [.expression]) (number i hexadecimal digits) := by
  simp only [number]
  generalize (if hexadecimal = true then Text.natural? 16 (digits.toList.drop 2)
    else Text.natural? 10 digits.toList) = value
  split
  · exact .error
  · split
    · exact .ok (rawAs_leaf hi rfl rfl rfl rfl)
    · exact .error

theorem yields_operation {sign : Info} (hs : sign.isFresh) {op : String} {operands : List Node}
    (ho : ∀ c ∈ operands, c.RawAs values) : Yields (RawAs [.expression]) (operation p sign op operands) := by
  refine .skip fun o => .pure ?_
  have args : (Node.arguments {} operands false).RawAs [.arguments] :=
    rawAs_list ho
  have sign : (Node.builtin sign o).RawAs [.expression] := rawAs_leaf hs
  exact rawAs_two sign args

theorem yields_callOf {callee args : Node} (hc : callee.RawAs values)
    (ha : args.RawAs [.arguments]) : Yields (RawAs [.expression]) (callOf p callee args) := by
  unfold callOf
  split
  · split
    next value owner =>
      have part {c : Node} (h : c ∈ [value,owner]) : c.RawAs Role.expression.below :=
        (ha.1.part h).mono (show Role.arguments.below ⊆ _ by decide)
      exact .ok (rawAs_two (part (c := value) (by simp)) (part (c := owner) (by simp)))
    · exact .error
  · exact .ok (rawAs_two hc ha)

theorem yields_parameters {x : Outcome (List Node)} (h : Yields (fun ns => ∀ n ∈ ns, n.RawAs [.parameter]) x) :
    Yields RawParameters (some <$> x) :=
  h.map fun _ h => h

theorem yields_annotatedOf {owner? : Option (Pos × Outcome Node)} {type : Unit → Outcome Node}
    (ho : ∀ o, owner? = some o → Yields (RawAs values) o.2) (ht : Yields (RawAs types) (type ())) :
    Yields (RawAs [.annotated]) (annotatedOf cx p owner? type) := by
  unfold annotatedOf
  cases owner? with
  | none =>
    refine ht.bind fun t h => .pure ?_
    have all : (Node.owner {} .all).RawAs [.expression] := rawAs_leaf
    exact rawAs_two h all
  | some owner =>
    refine (ho owner rfl).bind fun o h => ?_
    split
    · exact ht.bind fun t h' => .pure (rawAs_two h' h)
    · exact yields_refuse

end Elaboration

namespace Surface

open Elaboration

variable {cx : Elaboration}

mutual

theorem Expr.yields_toNode (top : Bool) (e : Expr) : Yields (RawAs (expressions top)) (e.toNode cx top) := by
  have plain {n : Node} (h : n.RawAs [.expression]) : n.RawAs (expressions top) :=
    h.mono (by cases top <;> decide)
  have typed {n : Node} (h : n.RawAs [.typeName]) : n.RawAs (expressions top) :=
    h.mono (by cases top <;> decide)
  rw [Expr.toNode.eq_def]
  match e with
  | .owner p who | .truth p value | .quoted p written =>
    exact .ok (plain rawAs_leaf)
  | .index p base key =>
    refine (Expr.yields_toNode false base).bind fun b hb => yields_guard ?_
    have made {k : Node} (hk : k.RawAs [.expression,.typeName,.empty]) :
        Yields (RawAs (expressions top)) (pure (.index (infoAt p) b k)) :=
      .pure (plain (rawAs_two hb hk))
    match key with
    | some k => exact (Expr.yields_toNode false k).bind fun k hk => made hk.mono
    | none => exact made rawAs_omitted.mono
  | .range p head base first last =>
    refine (Expr.yields_toNode false base).bind fun b hb => ?_
    have made {k : Node} (hk : k.RawAs [.expression,.typeName,.empty]) :
        (Node.range (infoAt p) b (.plain (.text head)) k).RawAs (expressions top) :=
      have word : (Node.plain (.text head)).RawAs [.word] := rawAs_leaf
      plain (rawAs_three hb word hk)
    match first, last with
    | some i, none => exact .skip fun _ => .skip fun _ => .error
    | some i, some j => exact .skip fun _ => .skip fun _ => .error
    | none, some j => exact (Expr.yields_toNode false j).bind fun k hk => .pure (made hk.mono)
    | none, none => exact .pure (made rawAs_omitted.mono)
  | .member p base label =>
    refine (Expr.yields_toNode false base).bind fun b hb => ?_
    have made {m : Node} (hm : m.RawAs [.label]) : Yields (RawAs (expressions top))
          (if !b.isLocation then .error .violated >>= fun (_ : Unit) => pure (.member (infoAt p) b m)
            else pure (.member (infoAt p) b m)) :=
      .guard (.pure (plain (rawAs_two hb hm)))
    match label with
    | some w => exact yields_identifier.bind fun m hm => made hm
    | none => exact made rawAs_leaf
  | .options p callee args =>
    refine (Expr.yields_toNode false callee).bind fun f hf => ?_
    refine (NamedArg.yields_toNodes args).bind fun as has => .pure (plain ?_)
    have list : (Node.arguments {} as false).RawAs [.arguments] :=
      rawAs_list has
    exact rawAs_two hf list
  | .call p callee args =>
    refine (Expr.yields_toNode false callee).bind fun f hf => ?_
    exact (Args.yields_toNode args).bind fun as has => (yields_callOf hf has).mono fun _ => plain
  | .payable p args =>
    refine (Args.yields_toNode args).bind fun as has => .pure (plain ?_)
    have label : (Node.identifier {} "payable").RawAs [.label] := rawAs_identifier (by decide)
    have callee : (Node.name {} (.identifier {} "payable")).RawAs [.expression] :=
      rawAs_one label
    exact rawAs_two callee has
  | .metaType p type =>
    exact (TypeName.yields_toNode type).bind fun t ht =>
      .pure (plain (rawAs_one ht))
  | .step p after sign operand =>
    cases top with
    | false =>
      exact yields_refused
    | true =>
    refine (Expr.yields_toNode false operand).bind fun a ha => ?_
    have one : (Node.number (infoAt sign.pos) 1 false none none).RawAs [.expression] :=
      rawAs_leaf
    refine (yields_operation rfl ?_).bind fun b hb => (Expr.yields_toNode false operand).bind fun c hc => .pure ?_
    · exact forall_mem_cons.2 ⟨ha,forall_mem_singleton.2 one.mono⟩
    · refine RawAs.mono ?_ (show [.simpleStatement] ⊆ _ by decide)
      exact rawAs_two hc hb
  | .unary p sign operand =>
    refine (Expr.yields_toNode false operand).bind fun a ha => ?_
    exact (yields_operation rfl (forall_mem_singleton.2 ha)).mono fun _ => plain
  | .binary p sign left right =>
    refine (Expr.yields_toNode false left).bind fun a ha => ?_
    refine (Expr.yields_toNode false right).bind fun b hb => ?_
    refine (yields_operation rfl ?_).mono fun _ => plain
    exact forall_mem_cons.2 ⟨ha,forall_mem_singleton.2 hb⟩
  | .conditional p condition yes no =>
    refine (Expr.yields_toNode false condition).bind fun a ha => ?_
    refine (Expr.yields_toNode false yes).bind fun b hb => ?_
    refine (Expr.yields_toNode false no).bind fun c hc => ?_
    refine (yields_operation rfl ?_).mono fun _ => plain
    exact forall_mem_cons.2 ⟨ha,forall_mem_cons.2 ⟨hb,forall_mem_singleton.2 hc⟩⟩
  | .assign p sign left right =>
    cases top with
    | false =>
      exact yields_refused
    | true =>
    refine (Expr.yields_toNode false left).bind fun a ha => ?_
    refine (Expr.yields_toNode false right).bind fun b hb => ?_
    have made {v : Node} (hv : v.RawAs values) (op : String) :
        (Node.assign (infoAt p) false a v op).RawAs (expressions true) :=
      have whole : (Node.assign (infoAt p) false a v op).RawAs [.simpleStatement] :=
        rawAs_two ha hv
      whole.mono
    dsimp only
    split
    · exact .pure (made hb _)
    · refine (Expr.yields_toNode false left).bind fun c hc => ?_
      refine (yields_operation rfl ?_).bind fun v hv => .pure (made hv.mono _)
      exact forall_mem_cons.2 ⟨hc,forall_mem_singleton.2 hb⟩
  | .create p type =>
    refine (TypeName.yields_toNode type).bind fun t ht => .pure (plain ?_)
    exact rawAs_one ht rfl (by simpa [keepsPlaces,types] using ht.2)
  | .tuple p components =>
    refine (Expr.yields_toElements true components).bind fun as has => .pure (plain ?_)
    exact rawAs_list has
  | .inlineArray p elements =>
    refine (Expr.yields_toNodes elements).bind fun as has => .pure (plain ?_)
    exact rawAs_list has
  | .name w =>
    refine yields_identifier.bind fun a ha => .pure (plain ?_)
    have label : a.role = .label := mem_singleton.1 ha.2
    exact rawAs_one ha rfl (by simp [keepsPlaces,label])
  | .number p hexadecimal digits =>
    exact (yields_number rfl).mono fun _ => plain
  | .elementary w =>
    exact yields_elementary.mono fun _ => typed

theorem Expr.yields_toNodes (es : List Expr) :
    Yields (fun ns => ∀ n ∈ ns, n.RawAs values) (Expr.toNodes cx es) := by
  rw [Expr.toNodes.eq_def]
  match es with
  | [] => exact .ok (by simp)
  | e :: rest => exact .cons (Expr.yields_toNode false e) (Expr.yields_toNodes rest)

theorem Expr.yields_toElements (taken : Bool) (es : List (Option Expr)) :
    Yields (fun ns => ∀ n ∈ ns, n.RawAs (.empty :: values)) (Expr.toElements cx taken es) := by
  have comma (b : Bool) (rest : List (Option Expr)) : ∀ n ∈ comma b rest, n.RawAs (.empty :: values) := by
    unfold comma
    split
    · exact forall_mem_singleton.2 rawAs_omitted.mono
    · simp
  match es with
  | [] =>
    rw [Expr.toElements]
    exact .ok (by simp)
  | none :: rest =>
    rw [Expr.toElements]
    refine (Expr.yields_toElements (!taken) rest).bind fun ns hns => .pure ?_
    exact forall_mem_append.2 ⟨comma _ _,hns⟩
  | some e :: rest =>
    rw [Expr.toElements]
    have made {here : List Node} (hh : ∀ n ∈ here, n.RawAs (.empty :: values)) :
        Yields (fun ns => ∀ n ∈ ns, n.RawAs (.empty :: values))
          (do return here ++ Elaboration.comma (!taken) rest ++ (← Expr.toElements cx taken rest)) := by
      refine (Expr.yields_toElements taken rest).bind fun ns hns => .pure ?_
      exact forall_mem_append.2 ⟨forall_mem_append.2 ⟨hh,comma _ _⟩,hns⟩
    split
    · refine Yields.bind (P := fun here => ∀ n ∈ here, n.RawAs (.empty :: values)) ?_ fun _ => made
      refine (Expr.yields_toNode false e).map fun n hn => ?_
      rw [List.singleton,forall_mem_singleton]
      exact hn.mono
    · exact made (by simp)

theorem Args.yields_toNode (as : Args) : Yields (RawAs [.arguments]) (as.toNode cx) := by
  match as with
  | .positional p values =>
    rw [Args.toNode]
    refine (Expr.yields_toNodes values).bind fun ns hns => .pure ?_
    exact rawAs_list hns
  | .named p values =>
    rw [Args.toNode]
    refine (NamedArg.yields_toNodes values).bind fun ns hns => .pure ?_
    exact rawAs_list hns

theorem NamedArg.yields_toNode (a : NamedArg) : Yields (RawAs [.arguments]) (a.toNode cx) := by
  match a with
  | .mk label value =>
    rw [NamedArg.toNode]
    exact (Expr.yields_toNode false value).bind fun n hn =>
      .pure (rawAs_one hn)

theorem NamedArg.yields_toNodes (as : List NamedArg) :
    Yields (fun ns => ∀ n ∈ ns, n.RawAs [.arguments]) (NamedArg.toNodes cx as) := by
  rw [NamedArg.toNodes.eq_def]
  match as with
  | [] => exact .ok (by simp)
  | a :: rest => exact .cons (NamedArg.yields_toNode a) (NamedArg.yields_toNodes rest)

theorem TypeName.yields_toNode (t : TypeName) : Yields (RawAs types) (t.toNode cx) := by
  have made {n : Node} (h : n.RawAs [.type]) : n.RawAs types := h.mono
  rw [TypeName.toNode.eq_def]
  match t with
  | .elementary w =>
    exact yields_elementary.mono fun _ h => h.mono
  | .function p parameters visibility mutability returns =>
    have words (ws : List Word) : ∀ c ∈ words ws, c.RawAs Role.type.below := by
      intro c hc
      obtain ⟨w,-,rfl⟩ := mem_map.1 hc
      have word : (Node.plain (.text w.text)).RawAs [.word] := rawAs_leaf
      exact word.mono
    have listed {ps rs : Option (List Node)} (hps : RawParameters ps) (hrs : RawParameters rs) :
        (Node.functionType (infoAt p) ps (Elaboration.words (visibility ++ mutability)) rs).RawAs [.type] := by
      refine rawAs_of_parts (fun c hc => ?_)
      simp only [parts,mem_append] at hc
      obtain (hc | hc) | hc := hc
      · exact (hps c hc).mono
      · exact words _ c hc
      · exact (hrs c hc).mono
    match parameters, returns with
    | some ps, some rs =>
      refine (yields_parameters (Param.yields_toNodes .parameter ps)).bind fun _ h => ?_
      refine (yields_parameters (Param.yields_toNodes .parameter rs)).bind fun _ h' => ?_
      exact .pure (made (listed h h'))
    | some ps, none =>
      refine (yields_parameters (Param.yields_toNodes .parameter ps)).bind fun _ h => ?_
      exact .pure (made (listed h (by simp [RawParameters])))
    | none, some rs =>
      refine (yields_parameters (Param.yields_toNodes .parameter rs)).bind fun _ h' => ?_
      exact .pure (made (listed (by simp [RawParameters]) h'))
    | none, none =>
      exact .pure (made (listed (by simp [RawParameters]) (by simp [RawParameters])))
  | .path names =>
    refine (Yields.mapM fun w _ => yields_identifier).bind fun ns hns => .pure ?_
    have info : ((names.head?.map fun w => infoAt w.pos).getD {}).isFresh = true := by cases names <;> rfl
    have whole : (Node.userType ((names.head?.map fun w => infoAt w.pos).getD {}) .plain ns).RawAs [.typeName] :=
      rawAs_list hns info
    exact whole.mono
  | .array p element size =>
    refine (TypeName.yields_toNode element).bind fun t ht => ?_
    have sized {k : Node} (hk : k.RawAs [.expression,.typeName,.empty]) :
        Yields (RawAs types) (pure (.arrayType (infoAt p) t k)) :=
      .pure (made (rawAs_two ht hk))
    match size with
    | some e => exact (Expr.yields_toNode false e).bind fun k hk => sized hk.mono
    | none => exact sized rawAs_omitted.mono
  | .mapping p key label value =>
    refine yields_elementary.bind fun k hk => yields_optional.bind fun l hl => ?_
    refine (Annotated.yields_toNode value).bind fun v hv => .pure (made ?_)
    refine rawAs_three hk hl hv rfl ?_
    have hk := hk.2
    have hl := hl.2
    have hv := hv.2
    simp only [mem_cons,not_mem_nil,or_false] at hk hl hv
    obtain hl | hl := hl <;> simp [keepsPlaces,hk,hl,hv]

theorem Annotated.yields_toNode (a : Annotated) : Yields (RawAs [.annotated]) (a.toNode cx) := by
  match a with
  | .mk p type (some who) =>
    rw [Annotated.toNode]
    refine yields_annotatedOf ?_ (TypeName.yields_toNode type)
    rintro o ⟨rfl⟩
    exact Expr.yields_toNode false who
  | .mk p type none =>
    rw [Annotated.toNode]
    exact yields_annotatedOf (by simp) (TypeName.yields_toNode type)

theorem Param.yields_toNode (kind : DeclKind) (a : Param) : Yields (RawAs [kind.role]) (a.toNode cx kind) := by
  match a with
  | .mk p isFinal type storage label =>
    rw [Param.toNode]
    refine (Annotated.yields_toNode type).bind fun t ht => yields_optional.bind fun n hn => .pure ?_
    exact rawAs_two ht hn rfl rfl rfl rfl (by cases kind <;> decide) (by cases kind <;> decide)

theorem Param.yields_toNodes (kind : DeclKind) (as : List Param) :
    Yields (fun ns => ∀ n ∈ ns, n.RawAs [kind.role]) (Param.toNodes cx kind as) := by
  rw [Param.toNodes.eq_def]
  match as with
  | [] => exact .ok (by simp)
  | a :: rest => exact .cons (Param.yields_toNode kind a) (Param.yields_toNodes kind rest)

end

variable {e : Node}

theorem Expr.yields_toOptional (e : Option Expr) :
    Yields (RawAs (.empty :: values)) (Expr.toOptional cx e) := by
  cases e with
  | none => exact .ok (rawAs_omitted.mono (by decide))
  | some e => exact (e.yields_toNode false).mono fun _ h => h.mono (by decide)

theorem Expr.yields_toRequired (e : Option Expr) : Yields (RawAs values) (Expr.toRequired cx e) := by
  cases e with
  | none => exact .error
  | some e => exact e.yields_toNode false

theorem Param.yields_toOptional (ps : Option (List Param)) :
    Yields RawParameters (Param.toOptional cx ps) := by
  cases ps with
  | none => exact .ok (by simp [RawParameters])
  | some ps => exact yields_parameters (Param.yields_toNodes .parameter ps)

theorem Args.yields_toRequired (as : Option Args) : Yields (RawAs [.arguments]) (Args.toRequired cx as) := by
  cases as with
  | none => exact .error
  | some as => exact as.yields_toNode

theorem EventParam.yields_toNode (a : EventParam) : Yields (RawAs [.item]) (a.toNode cx) := by
  obtain ⟨p,type,indexed,label⟩ := a
  refine type.yields_toNode.bind fun t ht => yields_optional.bind fun n hn => ?_
  exact .pure (rawAs_two ht hn)

theorem ErrorParam.yields_toNode (a : ErrorParam) : Yields (RawAs [.item]) (a.toNode cx) := by
  obtain ⟨p,type,label⟩ := a
  refine type.yields_toNode.bind fun t ht => yields_optional.bind fun n hn => ?_
  exact .pure (rawAs_two ht hn)

theorem Member.yields_toNode (a : Member) : Yields (RawAs [.variable]) (a.toNode cx) := by
  obtain ⟨p,type,label⟩ := a
  refine yields_identifier.bind fun n hn => type.yields_toNode.bind fun t ht => .pure ?_
  have all : (Node.owner {} .all).RawAs [.expression] := rawAs_leaf
  have annotated : (Node.annotated {} t false (.owner {} .all)).RawAs [.annotated] :=
    rawAs_two ht all
  exact rawAs_two annotated hn

theorem Base.yields_toNode (a : Base) : Yields (RawAs [.base]) (a.toNode cx) := by
  obtain ⟨p,path,args⟩ := a
  exact (Args.yields_toRequired args).bind fun as has => .pure (rawAs_one has rfl rfl rfl rfl (by decide) rfl)

theorem rawAs_asBlock {n : Node} (h : n.RawAs Role.steps) : (asBlock n).RawAs [.block] := by
  unfold asBlock
  split
  next hb =>
    refine ⟨h.1,mem_singleton.2 ?_⟩
    unfold isBlock at hb
    split at hb
    · rfl
    · cases hb
  next => exact rawAs_one h rfl rfl rfl rfl (by decide) rfl

theorem yields_requireOf {i : Info} (hi : i.isFresh) {condition remark : Node}
    (hc : condition.RawAs Role.simpleStatement.below) (hr : remark.RawAs Role.simpleStatement.below) :
    Yields (RawAs [.simpleStatement]) (requireOf i condition remark) :=
  .skip fun _ => .pure (rawAs_two hc hr hi rfl rfl rfl (by decide) (by decide) rfl)

theorem yields_statementOf {p : Pos} (h : e.RawAs (expressions true)) :
    Yields (RawAs Role.steps) (statementOf cx p e) := by
  have simple {n : Node} (h : n.RawAs [.simpleStatement]) : n.RawAs Role.steps := h.mono
  have roles : e.role = .expression ∨ e.role = .typeName ∨ e.role = .simpleStatement := by
    simpa [expressions] using h.2
  unfold statementOf
  split
  next hs => exact .pure ⟨h.1,role_mem_steps hs (by rcases roles with hr | hr | hr <;> simp [hr])⟩
  next hs =>
    have value : e.RawAs values := by
      refine ⟨h.1,?_⟩
      rcases roles with hr | hr | hr
      · simp [hr,values]
      · simp [hr,values]
      · exact absurd (isStatement_of_role (by simp [hr,Role.steps])) hs
    split
    next i values named _ =>
      have part {c : Node} (hc : c ∈ values) : c.RawAs [.expression,.arguments,.typeName] :=
        (h.1.part (mem_cons_of_mem _ (mem_singleton.2 rfl))).1.part hc
      split
      next c =>
        refine Yields.mono (yields_requireOf rfl ?_ rawAs_omitted.mono) fun _ => simple
        exact (part (by simp)).mono
      next c remark =>
        refine Yields.mono (yields_requireOf rfl ?_ ?_) fun _ => simple
        · exact (part (by simp)).mono
        · exact (part (by simp)).mono
      next => exact .skip fun _ => yields_refuse
    next => exact .guard (.pure (simple (rawAs_one value)))

theorem rawAs_updateOf (h : e.RawAs (expressions true)) :
    (updateOf e).RawAs [.typeName,.simpleStatement] := by
  have roles : e.role = .expression ∨ e.role = .typeName ∨ e.role = .simpleStatement := by
    simpa [expressions] using h.2
  unfold updateOf
  split
  next he =>
    have value : e.RawAs values := by
      refine ⟨h.1,?_⟩
      rcases roles with hr | hr | hr
      · simp [hr,values]
      · simp [hr,values]
      · -- No expression has the role of a simple statement.
        cases e with
        | declaration _ kind | statements _ kind => cases kind <;> cases hr
        | _ => first | (cases he; done) | cases hr
    exact (rawAs_one (r := .simpleStatement) value).mono
  next he =>
    refine ⟨h.1,?_⟩
    rcases roles with hr | hr | hr
    · exact absurd (isExpression_of_role hr) he
    · simp [hr]
    · simp [hr]

mutual

theorem Stmt.yields_toNode (s : Stmt) : Yields (RawAs Role.steps) (s.toNode cx) := by
  have block {n : Node} (h : n.RawAs Role.steps) : (asBlock n).RawAs Role.statement.below ∧ (asBlock n).role = .block :=
    ⟨(rawAs_asBlock h).mono,mem_singleton.1 (rawAs_asBlock h).2⟩
  have other {n : Node} (h : n.RawAs [.statement]) : n.RawAs Role.steps := h.mono
  rw [Stmt.toNode.eq_def]
  match s with
  | .block p body =>
    refine (Stmt.yields_toNodes body).bind fun ns hns => .pure ?_
    have whole : (Node.statements (infoAt p) (.block false) ns).RawAs [.block] :=
      rawAs_list hns
    exact whole.mono
  | .variable p decl value =>
    refine (decl.yields_toNode .variable).bind fun d hd => (Expr.yields_toOptional value).bind fun v hv => ?_
    have places : (Node.variableStatement (infoAt p) d v).keepsPlaces := by
      have hd := mem_singleton.1 hd.2
      have hv : v.role = .empty ∨ v.role = .expression ∨ v.role = .typeName := by simpa [values] using hv.2
      rcases hv with hv | hv | hv <;> simp [keepsPlaces,hd,hv,DeclKind.role]
    exact .pure ((rawAs_two (r := .variableStatement) hd hv rfl places).mono)
  | .expression p value =>
    exact (value.yields_toNode true).bind fun e he => yields_statementOf he
  | .declarations p decls value =>
    refine Yields.bind (P := fun ds => ∀ d ∈ ds, d.RawAs [.empty,.variable]) (.mapM fun d _ => ?_)
      fun ds hds => (value.yields_toNode false).bind fun v hv => ?_
    · cases d with
      | none => exact .pure rawAs_omitted.mono
      | some d => exact (d.yields_toNode .variable).mono fun _ h => h.mono
    · refine .pure ((rawAs_of_parts (r := .variablesStatement) ?_).mono)
      simp only [parts,forall_mem_append,forall_mem_singleton]
      exact ⟨RawAs.each hds,hv.mono⟩
  | .branch p condition yes no =>
    refine (condition.yields_toNode false).bind fun c hc => (Stmt.yields_toNode yes).bind fun y hy => ?_
    have made {n : Node} (hn : n.RawAs Role.statement.below ∧ (n.role = .empty ∨ n.role = .block)) :
        Yields (RawAs Role.steps) (pure (.branch (infoAt p) c (asBlock y) n)) :=
      .pure (other (rawAs_three hc (block hy).1 hn.1 rfl (by simpa [keepsPlaces,(block hy).2] using hn.2)))
    match no with
    | some s =>
      have other : Yields (fun n : Node => n.RawAs Role.statement.below ∧ (n.role = .empty ∨ n.role = .block))
          (asBlock <$> s.toNode cx) := (Stmt.yields_toNode s).map fun _ h => (block h).imp_right .inr
      exact other.bind fun n hn => made hn
    | none => exact made ⟨rawAs_omitted.mono,.inl rfl⟩
  | .forLoop p start condition update body =>
    have made {a u : Node} (ha : a.RawAs (.empty :: Role.steps))
        (hu : u.RawAs [.empty,.typeName,.simpleStatement]) {c b : Node} (hc : c.RawAs values)
        (hb : b.RawAs Role.steps) : (Node.forLoop (infoAt p) a c u (asBlock b)).RawAs Role.steps := by
      have hb := rawAs_asBlock hb
      have places : (Node.forLoop (infoAt p) a c u (asBlock b)).keepsPlaces := by
        have hc : c.role = .expression ∨ c.role = .typeName := by simpa [values] using hc.2
        simp only [keepsPlaces,Bool.and_eq_true,contains_iff_mem,decide_eq_true_eq]
        exact ⟨⟨⟨ha.2,by rcases hc with hc | hc <;> simp [hc]⟩,hu.2⟩,mem_singleton.1 hb.2⟩
      refine (rawAs_of_parts (r := .loop) ?_ rfl places).mono
      simp only [parts,forall_mem_cons]
      exact ⟨ha.mono,hc.mono,hu.mono,hb.mono,by simp⟩
    have begun {a : Node} (ha : a.RawAs (.empty :: Role.steps)) :
        Yields (RawAs Role.steps) (do
          let c ← Expr.toRequired cx condition
          let u ← match update with
            | some e => updateOf <$> e.toNode cx true
            | none => pure .omitted
          return .forLoop (infoAt p) a c u (asBlock (← Stmt.toNode cx body))) := by
      refine (Expr.yields_toRequired condition).bind fun c hc => ?_
      match update with
      | some e =>
        refine ((e.yields_toNode true).map fun _ => rawAs_updateOf).bind fun u hu => ?_
        exact (Stmt.yields_toNode body).bind fun b hb => .pure (made ha hu.mono hc hb)
      | none =>
        refine (Stmt.yields_toNode body).bind fun b hb => ?_
        exact .pure (made ha rawAs_omitted.mono hc hb)
    match start with
    | some s =>
      exact (Stmt.yields_toNode s).bind fun a ha => begun ha.mono
    | none =>
      exact begun rawAs_omitted.mono
  | .whileLoop p condition body =>
    refine (condition.yields_toNode false).bind fun c hc => (Stmt.yields_toNode body).bind fun b hb => ?_
    exact .pure (other (rawAs_two hc (block hb).1 rfl (by simp [keepsPlaces,block hb])))
  | .doWhileLoop p body condition =>
    refine (Stmt.yields_toNode body).bind fun b hb => (condition.yields_toNode false).bind fun c hc => ?_
    exact .pure (other (rawAs_two (block hb).1 hc rfl (by simp [keepsPlaces,block hb])))
  | .continueLoop p | .breakLoop p | .assembly p last =>
    exact .ok (other rawAs_leaf)
  | .tryCall p guarded returns body clauses =>
    refine (guarded.yields_toNode false).bind fun e he => (Param.yields_toOptional returns).bind fun rs hrs => ?_
    refine (Stmt.yields_toNode body).bind fun b hb => (CatchClause.yields_toNodes clauses).bind fun cs hcs => ?_
    refine .pure (other (rawAs_of_parts ?_))
    simp only [parts,cons_append,forall_mem_cons,forall_mem_append]
    exact ⟨he.mono,RawAs.each hrs,hb.mono,RawAs.each hcs⟩
  | .returnValue p value =>
    refine (Expr.yields_toOptional value).bind fun v hv => ?_
    exact .pure (other (rawAs_one hv))
  | .emit p signal args =>
    refine (signal.yields_toNode false).bind fun e he => (args.yields_toNode).bind fun as has => ?_
    exact .pure (other (rawAs_two he has))
  | .revert p failure args =>
    refine (failure.yields_toNode false).bind fun e he => (args.yields_toNode).bind fun as has => ?_
    exact .pure (other (rawAs_two he has))

theorem Stmt.yields_toNodes (ss : List Stmt) :
    Yields (fun ns => ∀ n ∈ ns, n.RawAs Role.steps) (Stmt.toNodes cx ss) := by
  rw [Stmt.toNodes.eq_def]
  match ss with
  | [] => exact .ok (by simp)
  | s :: rest => exact .cons (Stmt.yields_toNode s) (Stmt.yields_toNodes rest)

theorem CatchClause.yields_toNode (c : CatchClause) : Yields (RawAs [.clause]) (c.toNode cx) := by
  match c with
  | .mk p label parameters body =>
    rw [CatchClause.toNode]
    refine yields_optional.bind fun n hn => (Param.yields_toOptional parameters).bind fun ps hps => ?_
    refine (Stmt.yields_toNode body).bind fun b hb => .pure (rawAs_of_parts ?_)
    simp only [parts,cons_append,forall_mem_cons,forall_mem_append]
    exact ⟨hn.mono,RawAs.each hps,hb.mono,by simp⟩

theorem CatchClause.yields_toNodes (cs : List CatchClause) :
    Yields (fun ns => ∀ n ∈ ns, n.RawAs [.clause]) (CatchClause.toNodes cx cs) := by
  rw [CatchClause.toNodes.eq_def]
  match cs with
  | [] => exact .ok (by simp)
  | c :: rest => exact .cons (CatchClause.yields_toNode c) (CatchClause.yields_toNodes rest)

end

theorem Stmt.yields_toOptional (s : Option Stmt) :
    Yields (RawAs (.empty :: Role.steps)) (Stmt.toOptional cx s) := by
  cases s with
  | none => exact .ok (rawAs_omitted.mono (by decide))
  | some s => exact s.yields_toNode.mono fun _ h => h.mono (by decide)

theorem Mark.yields_toNodes (marks : List Mark) :
    Yields (fun ns => ∀ n ∈ ns, n.RawAs [.word,.mark]) (Mark.toNodes cx marks) := by
  have word (w : Word) : (Node.plain (.text w.text)).RawAs [.word,.mark] :=
    (rawAs_leaf (r := .word)).mono
  have called : Yields (fun ns => ∀ n ∈ ns, n.RawAs [.word,.mark]) (invocations cx marks) := by
    refine .mapM fun m _ => ?_
    refine (Args.yields_toRequired m.2.2).bind fun as has => .pure ?_
    exact (rawAs_one (r := .mark) has).mono
  refine called.bind fun is his => .pure ?_
  simp only [forall_mem_append]
  refine ⟨⟨⟨⟨?_,?_⟩,?_⟩,his⟩,?_⟩
  all_goals
    intro n hn
    obtain ⟨m,-,hm⟩ := mem_filterMap.1 hn
    split at hm
    · cases hm
      first
        | exact word _
        | exact (rawAs_leaf (r := .mark)).mono
    · cases hm

theorem Mark.rawAs_overrides (marks : List Mark) : ∀ n ∈ Mark.overrides marks, n.RawAs [.mark] := by
  intro n hn
  obtain ⟨m,-,hm⟩ := mem_filterMap.1 hn
  split at hm
  · cases hm
    exact rawAs_leaf rfl rfl rfl rfl rfl
  · cases hm

theorem yields_plain {what : String} {w : Word} : Yields (RawAs [.label]) (plainIdentifier cx what w) :=
  yields_identifier.bind fun _ hn => yields_guard (.pure hn)

theorem rawAs_function {i : Info} (hi : i.isFresh) {name body : Node} {parameters : Option (List Node)}
    {marks results : List Node} {kind : FunctionKind} (hn : name.RawAs [.label]) (hp : RawParameters parameters)
    (hm : ∀ n ∈ marks, n.RawAs [.word,.mark]) (hr : ∀ n ∈ results, n.RawAs [.parameter])
    (hb : body.RawAs (.empty :: Role.steps)) :
    (Node.function i name parameters marks results body kind).RawAs [.routine] := by
  refine rawAs_of_parts ?_ hi
  simp only [parts,cons_append,forall_mem_cons,forall_mem_append]
  exact ⟨hn.mono,⟨⟨RawAs.each hp,RawAs.each hm⟩,RawAs.each hr⟩,hb.mono,by simp⟩

attribute [local simp] Decl.isMember Decl.toNodes in
theorem Decl.yields_member (d : Decl) (member : d.isMember) : Yields (RawAs Role.members) (d.toNode cx) := by
  have routine {n : Node} (h : n.RawAs [.routine]) : n.RawAs Role.members := h.mono
  have definition {n : Node} (h : n.RawAs [.definition]) : n.RawAs Role.members := h.mono
  have directive {n : Node} (h : n.RawAs [.directive]) : n.RawAs Role.members := h.mono
  rw [Decl.toNode.eq_def]
  match d with
  | .constructor p parameters marks body =>
    refine (Param.yields_toNodes .parameter parameters).bind fun ps hps => ?_
    refine (Mark.yields_toNodes marks).bind fun ms hms => body.yields_toNode.bind fun b hb => .pure ?_
    exact routine (rawAs_function rfl (rawAs_identifier (by decide)) hps hms (by simp) hb.mono)
  | .function p special title parameters marks returns body =>
    have made {n : Node} (hn : n.RawAs [.label]) :
        Yields (RawAs Role.members) (do
          let ps ← Param.toNodes cx .parameter parameters
          let ms ← Mark.toNodes cx marks
          let rs ← Param.toOptional cx returns
          return .function (infoAt p) n (some ps) ms (rs.getD []) (← Stmt.toOptional cx body) .function) := by
      refine (Param.yields_toNodes .parameter parameters).bind fun ps hps => ?_
      refine (Mark.yields_toNodes marks).bind fun ms hms => (Param.yields_toOptional returns).bind fun rs hrs => ?_
      refine (Stmt.yields_toOptional body).bind fun b hb => .pure ?_
      exact routine (rawAs_function rfl hn hps hms hrs hb)
    dsimp only
    split
    next keyword =>
      refine made (rawAs_identifier ?_)
      have words : ∀ x ∈ ["fallback","receive"], isReserved x = false := by decide
      exact words _ (by simpa [keyword] using member)
    · exact yields_identifier.bind fun n hn => made hn
  | .modifier p title parameters marks body =>
    refine yields_identifier.bind fun n hn => (Param.yields_toNodes .parameter parameters).bind fun ps hps => ?_
    refine (Stmt.yields_toOptional body).bind fun b hb => .pure (routine (rawAs_of_parts ?_))
    simp only [parts,cons_append,forall_mem_cons,forall_mem_append]
    exact ⟨hn.mono,⟨RawAs.each hps,fun c hc => (Mark.rawAs_overrides marks c hc).mono⟩,hb.mono,by simp⟩
  | .fallback p parameters marks returns body =>
    refine (Param.yields_toOptional parameters).bind fun ps hps => (Param.yields_toOptional returns).bind fun rs hrs => ?_
    refine (Stmt.yields_toOptional body).bind fun b hb => (Mark.yields_toNodes marks).bind fun ms hms => .pure ?_
    exact routine (rawAs_function rfl (rawAs_identifier (by decide)) hps hms hrs hb)
  | .receive p marks body =>
    refine (Stmt.yields_toOptional body).bind fun b hb => (Mark.yields_toNodes marks).bind fun ms hms => .pure ?_
    exact routine (rawAs_function rfl (rawAs_identifier (by decide)) (by simp [RawParameters]) hms (by simp) hb)
  | .struct .. | .event .. | .error .. =>
    refine yields_identifier.bind fun n hn => (Yields.mapM fun m _ => m.yields_toNode).bind fun ms hms => ?_
    refine .pure (definition (rawAs_of_parts ?_))
    exact forall_mem_cons.2 ⟨hn.mono,RawAs.each hms⟩
  | .enum p title values =>
    refine yields_plain.bind fun n hn => ?_
    refine Yields.bind (P := fun vs => ∀ v ∈ vs, v.RawAs [.item]) (.mapM fun w _ => ?_) fun vs hvs => ?_
    · exact yields_plain.bind fun v hv => .pure (rawAs_one hv)
    · refine .pure (definition (rawAs_of_parts ?_))
      exact forall_mem_cons.2 ⟨hn.mono,RawAs.each hvs⟩
  | .valueType p title type =>
    refine yields_identifier.bind fun n hn => yields_elementary.bind fun t ht => ?_
    exact .pure (definition (rawAs_two hn ht))
  | .stateVariable p finals type marks title value =>
    refine type.yields_toNode.bind fun t ht => yields_identifier.bind fun n hn => ?_
    refine (Expr.yields_toOptional value).bind fun v hv => .pure ?_
    refine (rawAs_of_parts (r := .state) ?_).mono
    simp only [parts,forall_mem_cons]
    exact ⟨ht.mono,hn.mono,hv.mono,rawAs_omitted.mono,by simp⟩
  | .using p path type =>
    cases type with
    | none =>
      exact .error
    | some t =>
      exact t.yields_toNode.bind fun n hn => .pure (directive (rawAs_one hn))
  | .pragma .. | .importFile .. | .contract .. | .interface .. | .library .. | .constant .. => cases member

theorem Decl.yields_toNodes {rs : List Role} {ds : List Decl} (h : ∀ d ∈ ds, Yields (RawAs rs) (d.toNode cx)) :
    Yields (fun ns => ∀ n ∈ ns, n.RawAs rs) (Decl.toNodes cx ds) := by
  induction ds with
  | nil =>
    rw [Decl.toNodes]
    exact .ok (by simp)
  | cons _ _ ih =>
    rw [forall_mem_cons] at h
    rw [Decl.toNodes]
    exact .cons h.1 (ih h.2)

theorem Decl.yields_toNode (d : Decl) (flat : d.isFlat) : Yields (RawAs Role.units) (d.toNode cx) := by
  have members {ds : List Decl} (h : ds.all isMember) :
      Yields (fun ns => ∀ n ∈ ns, n.RawAs Role.members) (Decl.toNodes cx ds) :=
    Decl.yields_toNodes fun d hd => d.yields_member (all_eq_true.1 h d hd)
  have directive {n : Node} (h : n.RawAs [.directive]) : n.RawAs Role.units := h.mono
  match d with
  | .pragma p title version =>
    rw [Decl.toNode]
    exact .ok (directive rawAs_leaf)
  | .importFile p path unitName =>
    rw [Decl.toNode]
    refine yields_optional.bind fun n hn => .pure (directive ?_)
    exact rawAs_two hn rawAs_omitted
  | .contract p title parts =>
    rw [Decl.toNode]
    refine yields_identifier.bind fun n hn => (members flat).bind fun us hus => .pure ?_
    refine (rawAs_of_parts (r := .contract) ?_).mono
    simp only [Node.parts,append_nil,forall_mem_cons]
    exact ⟨hn.mono,RawAs.each hus⟩
  | .interface p title bases parts =>
    rw [Decl.toNode]
    refine yields_identifier.bind fun n hn => (Yields.mapM fun m _ => m.yields_toNode).bind fun bs hbs => ?_
    refine (members flat).bind fun us hus => .pure ?_
    refine (rawAs_of_parts (r := .interface) ?_).mono
    simp only [Node.parts,cons_append,forall_mem_cons,forall_mem_append]
    exact ⟨hn.mono,RawAs.each hbs,RawAs.each hus⟩
  | .library p title parts =>
    rw [Decl.toNode]
    refine yields_identifier.bind fun n hn => (members flat).bind fun us hus => .pure ?_
    refine (rawAs_of_parts (r := .library) ?_).mono
    exact forall_mem_cons.2 ⟨hn.mono,RawAs.each hus⟩
  | .constant p type title value =>
    rw [Decl.toNode]
    refine type.yields_toNode.bind fun t ht => yields_identifier.bind fun n hn => ?_
    refine (value.yields_toNode false).bind fun v hv => .pure ?_
    refine (rawAs_of_parts (r := .state) ?_).mono
    simp only [parts,forall_mem_cons]
    exact ⟨ht.mono,hn.mono,hv.mono,rawAs_omitted.mono,by simp⟩
  | .constructor .. | .function .. | .modifier .. | .fallback .. | .receive .. | .struct .. | .enum .. | .valueType ..
  | .stateVariable .. | .event .. | .error .. | .using .. =>
    refine Yields.mono (Decl.yields_member _ ?_) fun n h => h.mono
    exact flat

theorem Source.yields_toNode (s : Source) (flat : s.isFlat) : Yields (RawAs [.source]) (s.toNode cx) := by
  have single {p q : Pos} {n : Node} (h : n.RawAs Role.source.below) :
      (Node.source (infoAt p) [] [] (placedAt q n)).RawAs [.source] :=
    rawAs_one (rawAs_placed h _ _)
  cases s with
  | unit _ parts =>
    have units : Yields (fun ns => ∀ n ∈ ns, n.RawAs Role.units) (Decl.toNodes cx parts) :=
      Decl.yields_toNodes fun d hd => d.yields_toNode (all_eq_true.1 flat d hd)
    refine units.bind fun us hus => .pure (rawAs_of_parts ?_)
    simp only [Node.parts,append_nil,forall_mem_append,forall_mem_singleton]
    exact ⟨RawAs.each hus,rawAs_omitted.mono⟩
  | type _ t => exact t.yields_toNode.bind fun n hn => .pure (single hn.mono)
  | expression _ e => exact (e.yields_toNode false).bind fun n hn => .pure (single hn.mono)
  | statement _ s => exact s.yields_toNode.bind fun n hn => .pure (single hn.mono)
  | part _ d => exact (d.yields_member flat).bind fun n hn => .pure (single hn.mono)

end Surface

theorem Source.yields_parse (text : String) : Yields (·.isFlat) (Source.parse text) := by
  unfold parse
  split
  next s read => exact .ok (Surface.isFlat_of_parse read)
  next => exact .skip fun _ => .error

theorem Source.yields_unit (text : String) : Yields (RawAs [.source]) (Source.unit text) :=
  (yields_parse text).bind fun s flat => s.yields_toNode flat

end Confidential
