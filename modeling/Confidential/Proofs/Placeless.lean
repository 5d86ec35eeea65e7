import Mathlib
import Confidential.Compiler

/-!
Reading does not look at places. Tokens of the same kinds and texts are read as the same syntax, places apart.
-/

namespace Confidential

open List

def Token.still (t : Token) : Token :=
  { t with pos := default }

@[simp] theorem Token.isFixed_still (t : Token) (text : String) : t.still.isFixed text = t.isFixed text := rfl

@[simp] theorem Token.kind_still (t : Token) : t.still.kind = t.kind := rfl

@[simp] theorem Token.text_still (t : Token) : t.still.text = t.text := rfl

/-- Tokens that readers take: no stray character, and not the end. -/
def Token.Kind.isProper (k : Token.Kind) : Bool :=
  k != .invalid && k != .finish

namespace Parser

variable {α β : Type}

/-- Some proper tokens are taken from the first list, and the second one is left. -/
def Leaves (ts rest : List Token) : Prop :=
  ∃ taken, ts = taken ++ rest ∧ ∀ t ∈ taken, t.kind.isProper = true

theorem Leaves.refl (ts : List Token) : Leaves ts ts :=
  ⟨[],rfl,by simp⟩

theorem Leaves.trans {ts mid rest : List Token} (h : Leaves ts mid) (h' : Leaves mid rest) : Leaves ts rest := by
  obtain ⟨taken,rfl,proper⟩ := h
  obtain ⟨more,rfl,proper'⟩ := h'
  exact ⟨taken ++ more,by simp,forall_mem_append.2 ⟨proper,proper'⟩⟩

/-- Without places the second reader does what the first one does, which takes the tokens that it passes. -/
def Alike (f : α → α) (p q : Parser α) : Prop :=
  ∀ ts reach, q (ts.map Token.still) reach = ((p ts reach).1.map (Prod.map f (List.map Token.still)),(p ts reach).2) ∧
    ∀ read ∈ (p ts reach).1, Leaves ts read.2

theorem tokenAt_still (ts : List Token) (n : Nat) : tokenAt (ts.map Token.still) n = (tokenAt ts n).still := by
  unfold tokenAt
  rw [length_map,getElem?_map]
  cases ts[ts.length - n]? <;> rfl

namespace Alike

variable {f : α → α} {g : β → β} {p q : Parser α}

variable {a b : α} {p' q' : Parser α} {c : Prop} {ts : List Token}

theorem pure (h : f a = b) : Alike f (pure a) (pure b) := by
  subst h
  rintro ts reach
  exact ⟨rfl,by rintro read ⟨⟩; exact .refl ts⟩

theorem fail : Alike f fail fail := by
  intro ts reach
  simp [Parser.fail]

theorem bind {k l : α → Parser β} (hp : Alike f p q) (rest : ∀ a, Alike g (k a) (l (f a))) :
    Alike g (p >>= k) (q >>= l) := by
  intro ts reach
  obtain ⟨same,leaves⟩ := hp ts reach
  dsimp only [Bind.bind,instMonad]
  rw [same]
  revert leaves
  cases p ts reach with
  | mk result reached =>
    intro leaves
    cases result with
    | none => exact ⟨rfl,by simp⟩
    | some read =>
      obtain ⟨same',leaves'⟩ := rest read.1 read.2 reached
      exact ⟨same',fun next h => (leaves read rfl).trans (leaves' next h)⟩

theorem map {k : α → β} {l : α → β} (hp : Alike f p q) (same : ∀ a, g (k a) = l (f a)) : Alike g (k <$> p) (l <$> q) :=
  hp.bind fun a => pure (same a)

theorem orElse (hp : Alike f p q) (hp' : Alike f p' q') : Alike f (p <|> p') (q <|> q') := by
  intro ts reach
  obtain ⟨same,leaves⟩ := hp ts reach
  dsimp only [HOrElse.hOrElse,OrElse.orElse,Parser.orElse]
  rw [same]
  revert leaves
  cases p ts reach with
  | mk result reached =>
    intro leaves
    cases result with
    | none => exact hp' ts reached
    | some => exact ⟨rfl,leaves⟩

theorem ite [Decidable c] (hp : Alike f p q) (hp' : Alike f p' q') :
    Alike f (if c then p else p') (if c then q else q') := by
  split
  · exact hp
  · exact hp'

theorem iteBind [Decidable c] {k l : α → Parser β} (hp : Alike f p q) (hp' : Alike f p' q')
    (rest : ∀ a, Alike g (k a) (l (f a))) :
    Alike g (if c then p >>= k else p' >>= k) (if c then q >>= l else q' >>= l) :=
  ite (hp.bind rest) (hp'.bind rest)

theorem peek : Alike Token.still peek peek := by
  intro ts reach
  cases ts with
  | nil => exact ⟨rfl,by simp [Parser.peek]⟩
  | cons => exact ⟨rfl,by rintro read ⟨⟩; exact .refl _⟩

theorem remaining : Alike id remaining remaining := by
  intro ts reach
  simp [Parser.remaining,Leaves.refl]

theorem ahead {test : List Token → Bool} (h : ∀ ts, test (ts.map Token.still) = test ts) :
    Alike id (ahead test) (ahead test) := by
  intro ts reach
  simp [Parser.ahead,h,Leaves.refl]

theorem satisfy {test : Token → Bool} (h : ∀ t, test t.still = test t) (proper : ∀ t, test t → t.kind.isProper) :
    Alike Token.still (satisfy test) (satisfy test) := by
  intro ts reach
  cases ts with
  | nil => exact ⟨rfl,by simp [Parser.satisfy]⟩
  | cons t =>
    simp only [Parser.satisfy,map_cons,h,length_cons,length_map]
    split
    next taken => exact ⟨rfl,by rintro read ⟨⟩; exact ⟨[t],rfl,by simp [proper t taken]⟩⟩
    next => exact ⟨rfl,by simp⟩

theorem whole (hp : Alike f p q) : Alike f (whole p) (whole q) := by
  intro ts reach
  obtain ⟨same,leaves⟩ := hp ts { reach with inner := ts.length + 1 }
  unfold Parser.whole
  rw [length_map,same]
  revert leaves
  cases p ts { reach with inner := ts.length + 1 } with
  | mk result =>
    intro leaves
    cases result with
    | none => simp [tokenAt_still]
    | some => exact ⟨rfl,leaves⟩

theorem closely (hp : Alike f p q) : Alike f (closely p) (closely q) := by
  intro ts reach
  obtain ⟨same,leaves⟩ := hp ts { reach with inner := ts.length + 1 }
  unfold Parser.closely
  rw [length_map,same]
  exact ⟨rfl,leaves⟩

theorem run (hp : Alike f p q) (h : q.run (ts.map Token.still) = .ok b) :
    ∃ a, p.run ts = .ok a ∧ f a = b := by
  obtain ⟨rest,reach,read⟩ := run_eq_ok_iff.1 h
  rw [length_map,(hp _ _).1] at read
  obtain ⟨⟨a,left⟩,first,same⟩ := Option.map_eq_some_iff.1 (congrArg Prod.fst read)
  exact ⟨a,run_eq_ok_iff.2 ⟨left,_,Prod.ext first rfl⟩,congrArg Prod.fst same⟩

theorem run_ok (hp : Alike f p q) (h : p.run ts = .ok a) : q.run (ts.map Token.still) = .ok (f a) := by
  obtain ⟨rest,reach,read⟩ := run_eq_ok_iff.1 h
  refine run_eq_ok_iff.2 ⟨rest.map Token.still,reach,?_⟩
  rw [length_map,(hp _ _).1,read]
  rfl

theorem optional (hp : Alike f p q) : Alike (Option.map f) (optional p) (optional q) := by
  unfold Parser.optional
  exact orElse (hp.bind fun _ => pure rfl) (pure rfl)

theorem repeated (hp : Alike f p q) (n : Nat) : Alike (List.map f) (repeated p n) (repeated q n) := by
  induction n with
  | zero => exact pure rfl
  | succ _ ih => exact orElse (hp.bind fun _ => ih.bind fun _ => pure rfl) (pure rfl)

theorem many (hp : Alike f p q) : Alike (List.map f) (many p) (many q) :=
  remaining.bind fun n => hp.repeated n

theorem many1 (hp : Alike f p q) : Alike (List.map f) (many1 p) (many1 q) :=
  hp.bind fun _ => hp.many.bind fun _ => pure rfl

end Alike
/-- Whatever the first reader reads, the second one reads as well. -/
def Within (p q : Parser α) : Prop :=
  ∀ ts reach read reached, p ts reach = (some read,reached) → q ts reach = (some read,reached)

namespace Within

variable {p q q' : Parser α}

theorem trans {r : Parser α} (h : p.Within q) (h' : q.Within r) : p.Within r :=
  fun ts reach read reached eq => h' ts reach read reached (h ts reach read reached eq)

theorem bind {x : Parser β} {k l : β → Parser α} (rest : ∀ b, (k b).Within (l b)) : (x >>= k).Within (x >>= l) := by
  intro ts reach read reached eq
  dsimp only [Bind.bind,instMonad] at eq ⊢
  cases first : x ts reach with
  | mk result =>
    rw [first] at eq
    cases result with
    | none => cases eq
    | some => exact rest _ _ _ _ _ eq

theorem left (p q : Parser α) : p.Within (p <|> q) := by
  intro ts reach read reached eq
  dsimp only [HOrElse.hOrElse,OrElse.orElse,Parser.orElse]
  rw [eq]

theorem orElse (h : q.Within q') : (p <|> q).Within (p <|> q') := by
  intro ts reach read reached eq
  dsimp only [HOrElse.hOrElse,OrElse.orElse,Parser.orElse] at eq ⊢
  cases first : p ts reach with
  | mk result =>
    rw [first] at eq
    cases result with
    | none => exact h _ _ _ _ eq
    | some => exact eq

theorem run (h : p.Within q) {ts : List Token} {a : α} (read : p.run ts = .ok a) : q.run ts = .ok a := by
  obtain ⟨rest,reach,first⟩ := run_eq_ok_iff.1 read
  exact run_eq_ok_iff.2 ⟨rest,reach,h _ _ _ _ first⟩

end Within

end Parser

/-- What is read does not depend on places. -/
abbrev Unplaced {α : Type} (f : α → α) (p : Parser α) : Prop :=
  Parser.Alike f p p

namespace Surface

def Word.still (w : Word) : Word :=
  ⟨default,w.text⟩

mutual

def Expr.still : Expr → Expr
  | .owner _ who => .owner default who
  | .index _ base key => .index default base.still (match key with | some k => some k.still | none => none)
  | .range _ head base first last =>
    .range default head base.still (match first with | some i => some i.still | none => none)
      (match last with | some j => some j.still | none => none)
  | .member _ base label => .member default base.still (label.map Word.still)
  | .options _ callee args => .options default callee.still (NamedArg.stills args)
  | .call _ callee args => .call default callee.still (Args.still args)
  | .payable _ args => .payable default (Args.still args)
  | .metaType _ type => .metaType default (TypeName.still type)
  | .step _ after sign operand => .step default after sign.still operand.still
  | .unary _ sign operand => .unary default sign.still operand.still
  | .binary _ sign left right => .binary default sign.still left.still right.still
  | .conditional _ condition yes no => .conditional default condition.still yes.still no.still
  | .assign _ sign left right => .assign default sign.still left.still right.still
  | .create _ type => .create default (TypeName.still type)
  | .tuple _ components => .tuple default (Expr.stillPlaces components)
  | .inlineArray _ elements => .inlineArray default (Expr.stills elements)
  | .name w => .name w.still
  | .truth _ value => .truth default value
  | .number _ hexadecimal digits => .number default hexadecimal digits
  | .quoted _ written => .quoted default written
  | .elementary w => .elementary w.still

def Expr.stills : List Expr → List Expr
  | [] => []
  | e :: rest => Expr.still e :: Expr.stills rest

def Expr.stillPlaces : List (Option Expr) → List (Option Expr)
  | [] => []
  | none :: rest => none :: Expr.stillPlaces rest
  | some e :: rest => some e.still :: Expr.stillPlaces rest

def Args.still : Args → Args
  | .positional _ values => .positional default (Expr.stills values)
  | .named _ values => .named default (NamedArg.stills values)

def NamedArg.still : NamedArg → NamedArg
  | .mk label value => .mk label.still value.still

def NamedArg.stills : List NamedArg → List NamedArg
  | [] => []
  | a :: rest => NamedArg.still a :: NamedArg.stills rest

def TypeName.still : TypeName → TypeName
  | .elementary w => .elementary w.still
  | .function _ parameters visibility mutability returns =>
    .function default (match parameters with | some ps => some (Param.stills ps) | none => none)
      (visibility.map Word.still) (mutability.map Word.still)
      (match returns with | some ps => some (Param.stills ps) | none => none)
  | .path names => .path (names.map Word.still)
  | .array _ element size =>
    .array default (TypeName.still element) (match size with | some e => some e.still | none => none)
  | .mapping _ key label value => .mapping default key.still (label.map Word.still) (Annotated.still value)

def Annotated.still : Annotated → Annotated
  | .mk _ type owner => .mk default (TypeName.still type) (match owner with | some o => some o.still | none => none)

def Param.still : Param → Param
  | .mk _ isFinal type storage label => .mk default isFinal (Annotated.still type) storage (label.map Word.still)

def Param.stills : List Param → List Param
  | [] => []
  | p :: rest => Param.still p :: Param.stills rest

end

@[simp]
theorem Expr.still_index (p : Pos) (base : Expr) (key : Option Expr) :
    (Expr.index p base key).still = .index default base.still (key.map Expr.still) := by
  cases key <;> rfl

@[simp]
theorem Expr.still_range (p : Pos) (head : String) (base : Expr) (first last : Option Expr) :
    (Expr.range p head base first last).still = .range default head base.still (first.map Expr.still) (last.map Expr.still) := by
  cases first <;> cases last <;> rfl

attribute [local simp] Expr.still Args.still NamedArg.still TypeName.still Annotated.still Param.still in
theorem Expr.stills_eq (es : List Expr) : Expr.stills es = es.map Expr.still := by
  induction es with
  | nil => rfl
  | cons _ _ ih => rw [Expr.stills,ih,map_cons]

theorem Expr.stillPlaces_eq (es : List (Option Expr)) : Expr.stillPlaces es = es.map (Option.map Expr.still) := by
  induction es with
  | nil => rfl
  | cons e _ ih => cases e <;> simp [Expr.stillPlaces,ih]

theorem NamedArg.stills_eq (as : List NamedArg) : NamedArg.stills as = as.map NamedArg.still := by
  induction as with
  | nil => rfl
  | cons _ _ ih => rw [NamedArg.stills,ih,map_cons]

theorem Param.stills_eq (ps : List Param) : Param.stills ps = ps.map Param.still := by
  induction ps with
  | nil => rfl
  | cons _ _ ih => rw [Param.stills,ih,map_cons]

end Surface

namespace Parser.Alike

variable {α : Type} {f : α → α} {p q : Parser α}

variable {t : Token} {text : String}

theorem proper_of_isFixed (h : t.isFixed text) : t.kind.isProper := by
  simp only [Token.isFixed,Bool.and_eq_true,beq_iff_eq] at h
  rw [h.1]
  rfl

theorem fixed (text : String) : Unplaced Surface.Word.still (fixed text) :=
  (satisfy (fun _ => rfl) fun _ => proper_of_isFixed).bind fun _ => pure rfl

theorem word {β : Type} {g : β → β} {k l : Surface.Word → Parser β} (rest : ∀ w, Alike g (k w) (l w.still)) :
    Alike g (Parser.fixed text >>= k) (Parser.fixed text >>= l) :=
  (fixed text).bind rest

theorem proper_of_any {texts : List String} (h : texts.any t.isFixed) : t.kind.isProper := by
  obtain ⟨text,-,h⟩ := any_eq_true.1 h
  exact proper_of_isFixed h

theorem oneOf (texts : List String) : Unplaced Surface.Word.still (oneOf texts) :=
  (satisfy (fun _ => rfl) fun _ => proper_of_any).bind fun _ => pure rfl

theorem kind {k : Token.Kind} (proper : k.isProper) : Unplaced Surface.Word.still (kind k) :=
  (satisfy (fun _ => rfl) fun t h => (beq_iff_eq.1 h : t.kind = k) ▸ proper).bind fun _ => pure rfl

theorem name : Unplaced Surface.Word.still name :=
  kind rfl

theorem here : Unplaced (fun _ => default) here :=
  peek.bind fun _ => pure rfl

theorem nextIs (text : String) : Unplaced id (nextIs text) :=
  peek.bind fun _ => pure rfl

theorem finish : Unplaced id finish :=
  peek.bind fun _ => ite (pure rfl) fail

theorem separated (hp : Alike f p q) (divider : String) : Alike (List.map f) (separated p divider) (separated q divider) :=
  hp.bind fun _ => ((fixed divider).bind fun _ => hp).many.bind fun _ => pure rfl

theorem commaList (hp : Alike f p q) (closing : String) : Alike (List.map f) (commaList p closing) (commaList q closing) :=
  (nextIs closing).bind fun _ => ite (pure rfl) (hp.separated ",")

end Parser.Alike

namespace Surface

/-- What the readers give does not depend on places. -/
structure Rules.Placeless (r : Rules) : Prop where
  expr : ∀ edge level, Unplaced Expr.still (r.expr edge level)
  type : Unplaced TypeName.still r.type

namespace Rules.Placeless

open Parser.Alike

variable {r : Rules} (h : r.Placeless)
include h

theorem expression : Unplaced Expr.still r.expression :=
  h.expr .free 0

theorem namedArg : Unplaced NamedArg.still r.namedArg :=
  name.bind fun _ => word fun _ => h.expression.bind fun _ => .pure rfl

theorem namedArgs : Unplaced (List.map NamedArg.still) r.namedArgs :=
  word fun _ => (h.namedArg.commaList _).bind fun _ => word fun _ => .pure rfl

theorem args : Unplaced Args.still r.args := by
  refine word fun start => (nextIs _).bind fun _ => ite ?_ ?_
  · refine h.namedArgs.bind fun values => word fun _ => .pure ?_
    rw [Args.still,NamedArg.stills_eq]
    rfl
  · refine (h.expression.commaList _).bind fun values => word fun _ => .pure ?_
    rw [Args.still,Expr.stills_eq]
    rfl

theorem annotated : Unplaced Annotated.still r.annotated := by
  refine here.bind fun _ => h.type.bind fun _ => Parser.Alike.bind (optional (word fun _ => h.expression)) fun owner => .pure ?_
  cases owner <;> rfl

omit h in
theorem storage : Unplaced id storage :=
  (oneOf _).bind fun _ => .pure rfl

theorem param : Unplaced Param.still r.param := by
  refine here.bind fun _ => Parser.Alike.bind (optional (fixed _)) fun isFinal => h.annotated.bind fun _ =>
    Parser.Alike.bind (optional storage) fun place => Parser.Alike.bind (optional name) fun _ => .pure ?_
  cases isFinal <;> cases place <;> rfl

theorem params : Unplaced (List.map Param.still) r.params :=
  word fun _ => (h.param.commaList _).bind fun _ => word fun _ => .pure rfl

theorem returns : Unplaced (List.map Param.still) r.returns :=
  word fun _ => h.params

omit h in
theorem filter_still (test : String → Bool) (ws : List Word) :
    (ws.map Word.still).filter (fun w => test w.text) = (ws.filter fun w => test w.text).map Word.still := by
  rw [filter_map]
  rfl

theorem functionType : Unplaced TypeName.still r.functionType := by
  refine word fun start => Parser.Alike.bind (optional h.params) fun ps =>
    Parser.Alike.bind (many (oneOf _)) fun marks => Parser.Alike.bind (optional h.returns) fun outs => .pure ?_
  rw [filter_still visibilityWords.contains,filter_still mutabilityWords.contains]
  cases ps <;> cases outs <;> simp [TypeName.still,Param.stills_eq,Word.still]

omit h in
theorem elementary : Unplaced Word.still elementary := by
  refine (satisfy (fun _ => rfl) fun t h => ?_).bind fun _ => .pure rfl
  rw [isElementary,Bool.or_eq_true,beq_iff_eq] at h
  obtain h | h := h
  · rw [h]
    rfl
  · exact proper_of_any h

theorem mapping : Unplaced TypeName.still r.mapping :=
  word fun _ => word fun _ => elementary.bind fun _ =>
    Parser.Alike.bind (optional (word fun _ => name)) fun _ => word fun _ =>
    h.annotated.bind fun _ => word fun _ => .pure rfl

omit h in
theorem path : Unplaced (List.map Word.still) path :=
  name.separated "."

theorem typeBase : Unplaced TypeName.still r.typeBase :=
  orElse (elementary.bind fun _ => .pure rfl) <| orElse h.functionType <|
    orElse (path.bind fun _ => .pure rfl) h.mapping

theorem arraySize : Unplaced (Option.map Expr.still) r.arraySize := by
  refine word fun _ => (nextIs _).bind fun _ =>
    iteBind (f := Option.map Expr.still) (.pure rfl) (h.expression.closely.map fun _ => rfl) fun _ => ?_
  exact word fun _ => .pure rfl

theorem typeName : Unplaced TypeName.still r.typeName := by
  refine here.bind fun pos => h.typeBase.bind fun base => h.arraySize.many.bind fun sizes => .pure ?_
  induction sizes generalizing base with
  | nil => rfl
  | cons size _ ih =>
    rw [foldl_cons,ih,map_cons,foldl_cons]
    cases size <;> rfl

omit h in
theorem quoted : Unplaced Expr.still quoted :=
  (kind (by rfl)).bind fun _ => .pure rfl

omit h in
theorem truth : Unplaced Expr.still truth :=
  (kind (by rfl)).bind fun _ => .pure rfl

omit h in
theorem number : Unplaced Expr.still number :=
  orElse ((kind (by rfl)).bind fun _ => .pure rfl) ((kind (by rfl)).bind fun _ => .pure rfl)

omit h in
theorem owner : Unplaced Expr.still owner :=
  orElse (word fun _ => .pure rfl) <| orElse (word fun _ => .pure rfl)
    (word fun _ => .pure rfl)

theorem component : Unplaced (Option.map Expr.still) r.component :=
  peek.bind fun _ => ite (.pure rfl) (h.expression.map fun _ => rfl)

theorem tuple : Unplaced Expr.still r.tuple := by
  refine word fun _ => (h.component.separated _).bind fun components => word fun _ => .pure ?_
  rw [Expr.still,Expr.stillPlaces_eq]
  rfl

theorem inlineArray : Unplaced Expr.still r.inlineArray := by
  refine word fun _ => (h.expression.separated _).bind fun elements => word fun _ => .pure ?_
  rw [Expr.still,Expr.stills_eq]
  rfl

theorem metaType : Unplaced Expr.still r.metaType :=
  word fun _ => word fun _ => h.type.bind fun _ => word fun _ => .pure rfl

theorem payable : Unplaced Expr.still r.payable :=
  word fun _ => h.args.bind fun _ => .pure rfl

omit h in
theorem leaving {α : Type} {f : α → α} {p q : Parser α} (edge : Edge) (alike : Parser.Alike f p q) :
    Parser.Alike f (leaving edge p) (leaving edge q) := by
  refine alike.bind fun _ => ite ((nextIs _).bind fun _ => ite ?_ (.pure rfl)) (.pure rfl)
  exact Parser.Alike.bind (f := id) .fail fun _ => .pure rfl

theorem create (edge : Edge) : Unplaced Expr.still (r.create edge) := by
  refine word fun _ => (orElse (leaving edge h.type) ?_).bind fun _ => .pure rfl
  exact word fun _ => .pure rfl

theorem prefixed (edge : Edge) : Unplaced Expr.still (r.prefixed edge) :=
  orElse ((oneOf _).bind fun _ => (h.expr edge _).bind fun _ => .pure rfl)
    ((oneOf _).bind fun _ => (h.expr edge _).bind fun _ => .pure rfl)

theorem operand (edge : Edge) : Unplaced Expr.still (r.operand edge) :=
  orElse owner <| orElse h.payable <| orElse h.metaType <| orElse (h.prefixed edge) <| orElse (h.create edge) <|
    orElse h.tuple <| orElse h.inlineArray <| orElse (name.bind fun _ => .pure rfl) <| orElse truth <|
    orElse number <| orElse quoted (elementary.bind fun _ => .pure rfl)

theorem bracketed (pos : Pos) (head : String) (base : Expr) :
    Parser.Alike Expr.still (r.bracketed pos head base) (r.bracketed default head base.still) := by
  refine word fun _ => peek.bind fun _ =>
    iteBind (f := Option.map Expr.still) (.pure rfl) (h.expression.closely.map fun _ => rfl) fun first => orElse ?_ ?_
  · refine word fun _ => .pure ?_
    cases first <;> rfl
  · refine word fun _ => (nextIs _).bind fun _ =>
      iteBind (f := Option.map Expr.still) (.pure rfl) (h.expression.map fun _ => rfl) fun last =>
      word fun _ => .pure ?_
    cases first <;> cases last <;> rfl

omit h in
theorem membered (pos : Pos) (base : Expr) : Parser.Alike Expr.still (membered pos base) (membered default base.still) :=
  word fun _ => orElse (name.bind fun _ => .pure rfl) (word fun _ => .pure rfl)

theorem called (edge : Edge) (pos : Pos) (callee : Expr) :
    Parser.Alike Expr.still (r.called edge pos callee) (r.called edge default callee.still) :=
  (leaving edge h.args.whole).bind fun _ => .pure rfl

omit h in
theorem opensBlock_still (ts : List Token) : opensBlock (ts.map Token.still) = opensBlock ts := by
  cases ts with
  | nil => rfl
  | cons _ ts =>
    cases ts with
    | nil => rfl
    | cons _ ts => cases ts <;> rfl

theorem optioned (edge : Edge) (pos : Pos) (callee : Expr) :
    Parser.Alike Expr.still (r.optioned edge pos callee) (r.optioned edge default callee.still) := by
  have last : Parser.Alike Expr.still (do return .options pos callee (← r.namedArgs))
      (do return .options default callee.still (← r.namedArgs)) := by
    refine h.namedArgs.bind fun args => .pure ?_
    rw [Expr.still,NamedArg.stills_eq]
  exact (ahead opensBlock_still).bind fun _ => ite (Parser.Alike.bind (f := id) .fail fun _ => last) last

omit h in
theorem stepped (pos : Pos) (base : Expr) : Parser.Alike Expr.still (stepped pos base) (stepped default base.still) :=
  (oneOf _).bind fun _ => .pure rfl

theorem suffixed (edge : Edge) (pos : Pos) (head : String) (n : Nat) (base : Expr) :
    Parser.Alike Expr.still (r.suffixed edge pos head n base) (r.suffixed edge default head n base.still) := by
  induction n generalizing base with
  | zero => exact .pure rfl
  | succ _ ih =>
    exact orElse (Parser.Alike.bind (orElse (h.bracketed pos head base) <| orElse (membered pos base) <|
      orElse (h.optioned edge pos base) <| orElse (h.called edge pos base) (stepped pos base)) ih) (.pure rfl)

theorem operation (edge : Edge) (pos : Pos) (left : Expr) (sign : Word) (level : Nat) (toRight : Bool) :
    Parser.Alike Expr.still (r.operation edge pos left sign level toRight)
      (r.operation edge default left.still sign.still level toRight) := by
  refine ite ?_ ?_
  · exact h.expression.bind fun _ => word fun _ => (h.expr edge level).bind fun _ => .pure rfl
  · refine (h.expr edge _).bind fun right => .pure ?_
    split <;> rfl

theorem climb (edge : Edge) (pos : Pos) (level n : Nat) (left : Expr) :
    Parser.Alike Expr.still (r.climb edge pos level n left) (r.climb edge default level n left.still) := by
  induction n generalizing left with
  | zero => exact .pure rfl
  | succ _ ih =>
    refine peek.bind fun t => ?_
    rw [Token.kind_still,Token.text_still]
    split
    next l toRight _ =>
      refine ite (.pure rfl) (word fun sign => ?_)
      exact (h.operation edge pos left sign l toRight).bind ih
    next => exact .pure rfl

theorem exprAt (edge : Edge) (level : Nat) : Unplaced Expr.still (r.exprAt edge level) :=
  peek.bind fun first => remaining.bind fun n => (h.operand edge).bind fun base =>
    (h.suffixed edge first.pos first.text n base).bind fun left => h.climb edge first.pos level n left

end Rules.Placeless

theorem Rules.placeless_depth (n : Nat) : (Rules.depth n).Placeless := by
  induction n with
  | zero => exact ⟨fun _ _ => .fail,.fail⟩
  | succ _ ih => exact ⟨ih.exprAt,ih.typeName⟩

end Surface
end Confidential
