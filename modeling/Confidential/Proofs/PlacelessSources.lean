import Confidential.Proofs.Placeless

/-!
Statements, declarations and whole sources are read without a look at places, and from all of their tokens.
-/

namespace Confidential

open Parser.Alike

namespace Surface

def Mark.still : Mark → Mark
  | .visibility w => .visibility w.still
  | .mutability w => .mutability w.still
  | .keyword w => .keyword w.still
  | .invocation _ path args => .invocation default (path.map Word.still) (args.map Args.still)
  | .override _ paths => .override default (paths.map (List.map Word.still))

mutual

def Stmt.still : Stmt → Stmt
  | .block _ body => .block default (Stmt.stills body)
  | .variable _ declaration value => .variable default declaration.still (value.map Expr.still)
  | .expression _ value => .expression default value.still
  | .declarations _ declared value => .declarations default (declared.map (Option.map Param.still)) value.still
  | .branch _ condition yes no =>
    .branch default condition.still (Stmt.still yes) (match no with | some s => some (Stmt.still s) | none => none)
  | .forLoop _ start condition update body =>
    .forLoop default (match start with | some s => some (Stmt.still s) | none => none) (condition.map Expr.still)
      (update.map Expr.still) (Stmt.still body)
  | .whileLoop _ condition body => .whileLoop default condition.still (Stmt.still body)
  | .doWhileLoop _ body condition => .doWhileLoop default (Stmt.still body) condition.still
  | .continueLoop _ => .continueLoop default
  | .breakLoop _ => .breakLoop default
  | .tryCall _ call returns body clauses =>
    .tryCall default call.still (returns.map (List.map Param.still)) (Stmt.still body) (CatchClause.stills clauses)
  | .returnValue _ value => .returnValue default (value.map Expr.still)
  | .emit _ event args => .emit default event.still args.still
  | .revert _ error args => .revert default error.still args.still
  | .assembly _ _ => .assembly default default

def Stmt.stills : List Stmt → List Stmt
  | [] => []
  | s :: rest => Stmt.still s :: Stmt.stills rest

def CatchClause.still : CatchClause → CatchClause
  | .mk _ name parameters body =>
    .mk default (name.map Word.still) (parameters.map (List.map Param.still)) (Stmt.still body)

def CatchClause.stills : List CatchClause → List CatchClause
  | [] => []
  | c :: rest => CatchClause.still c :: CatchClause.stills rest

end

attribute [local simp] Stmt.still CatchClause.still in
theorem Stmt.stills_eq (ss : List Stmt) : Stmt.stills ss = ss.map Stmt.still := by
  induction ss with
  | nil => rfl
  | cons _ _ ih => rw [Stmt.stills,ih,List.map_cons]

theorem CatchClause.stills_eq (cs : List CatchClause) : CatchClause.stills cs = cs.map CatchClause.still := by
  induction cs with
  | nil => rfl
  | cons _ _ ih => rw [CatchClause.stills,ih,List.map_cons]

def EventParam.still : EventParam → EventParam
  | .mk _ type indexed name => .mk default type.still (indexed.map Word.still) (name.map Word.still)

def ErrorParam.still : ErrorParam → ErrorParam
  | .mk _ type name => .mk default type.still (name.map Word.still)

def Member.still : Member → Member
  | .mk _ type name => .mk default type.still name.still

def Base.still : Base → Base
  | .mk _ path args => .mk default (path.map Word.still) (args.map Args.still)

mutual

def Decl.still : Decl → Decl
  | .constructor _ parameters marks body =>
    .constructor default (parameters.map Param.still) (marks.map Mark.still) body.still
  | .function _ special name parameters marks returns body =>
    .function default special name.still (parameters.map Param.still) (marks.map Mark.still)
      (returns.map (List.map Param.still)) (body.map Stmt.still)
  | .modifier _ name parameters marks body =>
    .modifier default name.still (parameters.map Param.still) (marks.map Mark.still) (body.map Stmt.still)
  | .fallback _ parameters marks returns body =>
    .fallback default (parameters.map (List.map Param.still)) (marks.map Mark.still) (returns.map (List.map Param.still))
      (body.map Stmt.still)
  | .receive _ marks body => .receive default (marks.map Mark.still) (body.map Stmt.still)
  | .struct _ name members => .struct default name.still (members.map Member.still)
  | .enum _ name values => .enum default name.still (values.map Word.still)
  | .valueType _ name type => .valueType default name.still type.still
  | .stateVariable _ finals type marks name value =>
    .stateVariable default (finals.map Word.still) type.still (marks.map Mark.still) name.still (value.map Expr.still)
  | .event _ name parameters anonymous =>
    .event default name.still (parameters.map EventParam.still) (anonymous.map Word.still)
  | .error _ name parameters => .error default name.still (parameters.map ErrorParam.still)
  | .using _ path type => .using default (path.map Word.still) (type.map TypeName.still)
  | .pragma _ name version => .pragma default name.still version
  | .importFile _ path unitName => .importFile default path.still (unitName.map Word.still)
  | .contract _ name parts => .contract default name.still (Decl.stills parts)
  | .interface _ name bases parts => .interface default name.still (bases.map Base.still) (Decl.stills parts)
  | .library _ name parts => .library default name.still (Decl.stills parts)
  | .constant _ type name value => .constant default type.still name.still value.still

def Decl.stills : List Decl → List Decl
  | [] => []
  | d :: rest => Decl.still d :: Decl.stills rest

end

attribute [local simp] Decl.still in
theorem Decl.stills_eq (ds : List Decl) : Decl.stills ds = ds.map Decl.still := by
  induction ds with
  | nil => rfl
  | cons _ _ ih => rw [Decl.stills,ih,List.map_cons]

def Source.still : Source → Source
  | .unit _ parts => .unit default (parts.map Decl.still)
  | .type _ t => .type default t.still
  | .expression _ e => .expression default e.still
  | .statement _ s => .statement default s.still
  | .part _ d => .part default d.still

/-! ### Assembly -/

namespace Assembly

theorem path_unplaced : Unplaced id path :=
  (name.separated _).bind fun _ => .pure rfl

theorem literal_unplaced : Unplaced id literal :=
  Parser.Alike.bind (orElse (kind (by rfl)) <| orElse (kind (by rfl)) <| orElse (kind (by rfl)) <| orElse (kind (by rfl)) (kind (by rfl))) fun _ => .pure rfl

theorem call_unplaced {expression : Parser Unit} (he : Unplaced id expression) : Unplaced id (call expression) :=
  name.bind fun _ => word fun _ => (he.commaList _).bind fun _ => word fun _ => .pure rfl

theorem expression_unplaced (n : Nat) : Unplaced id (expression n) := by
  induction n with
  | zero => exact .fail
  | succ _ ih => exact orElse (call_unplaced ih) (orElse path_unplaced literal_unplaced)

theorem statement_unplaced (n : Nat) : Unplaced id (statement n) := by
  induction n with
  | zero => exact .fail
  | succ n ih =>
    have value := expression_unplaced n
    have block : Unplaced id (block (statement n)) := word fun _ => ih.many.bind fun _ => word fun _ => .pure rfl
    have last : Unplaced id (defaultCase (statement n)) := word fun _ => block
    have case : Unplaced id (case (statement n)) := word fun _ => literal_unplaced.bind fun _ => block
    refine orElse block <| orElse ?_ <| orElse ?_ <| orElse (call_unplaced value) <| orElse ?_ <| orElse ?_ <|
      orElse ?_ <| orElse ?_ ?_
    · refine word fun _ => (name.separated _).bind fun names =>
        Parser.Alike.bind (f := Option.map id) (optional (word fun _ => ?_)) fun _ => .pure rfl
      rw [List.length_map]
      exact ite value (call_unplaced value)
    · refine orElse (path_unplaced.bind fun _ => word fun _ => value) (path_unplaced.bind fun _ => ?_)
      exact (many1 (word fun _ => path_unplaced)).bind fun _ => word fun _ => call_unplaced value
    · exact word fun _ => value.bind fun _ => block
    · exact word fun _ => block.bind fun _ => value.bind fun _ => block.bind fun _ => block
    · refine word fun _ => value.bind fun _ => orElse ?_ last
      exact case.many1.bind fun _ => last.optional.bind fun _ => .pure rfl
    · exact (oneOf _).bind fun _ => .pure rfl
    · refine word fun _ => name.bind fun _ => word fun _ => (name.commaList _).bind fun _ => word fun _ => ?_
      exact Parser.Alike.bind (optional (word fun _ => name.separated _)) fun _ => block

end Assembly

namespace Rules.Placeless

variable {r : Rules} (h : r.Placeless)
include h

/-! ### Statements -/

theorem variableDeclaration : Unplaced Param.still r.variableDeclaration := by
  refine here.bind fun _ => Parser.Alike.bind (optional (fixed _)) fun isFinal => h.annotated.bind fun _ =>
    Parser.Alike.bind (optional storage) fun place => name.bind fun _ => .pure ?_
  cases isFinal <;> cases place <;> rfl

theorem value : Unplaced (Option.map Expr.still) (Parser.optional (do let _ ← Parser.fixed "="; r.expression)) :=
  optional (word fun _ => h.expression)

theorem condition : Unplaced Expr.still r.condition :=
  word fun _ => h.expression.bind fun _ => word fun _ => .pure rfl

theorem simpleStatement : Unplaced Stmt.still r.simpleStatement := by
  refine orElse ?_ <| orElse ?_ ?_
  · exact here.bind fun _ => h.variableDeclaration.bind fun _ => h.value.bind fun _ => word fun _ => .pure rfl
  · exact here.bind fun _ => h.expression.bind fun _ => word fun _ => .pure rfl
  · refine word fun _ => Parser.Alike.bind (many (fixed _)) fun _ => h.variableDeclaration.bind fun _ =>
      Parser.Alike.bind (many (word fun _ => h.variableDeclaration.optional)) fun _ => word fun _ => word fun _ =>
      h.expression.bind fun _ => word fun _ => .pure ?_
    simp [Stmt.still,Word.still,Function.comp_def]

section

variable {statement : Parser Stmt} (hs : Unplaced Stmt.still statement)
include hs

omit h in
theorem block : Unplaced Stmt.still (block statement) := by
  refine word fun _ => hs.many.bind fun body => word fun _ => .pure ?_
  rw [Stmt.still,Stmt.stills_eq]
  rfl

theorem branch : Unplaced Stmt.still (r.branch statement) := by
  refine word fun _ => h.condition.bind fun _ => hs.bind fun _ => Parser.Alike.bind (optional (word fun _ => hs)) fun no => .pure ?_
  cases no <;> rfl

theorem forLoop : Unplaced Stmt.still (r.forLoop statement) := by
  refine word fun _ => word fun _ => Parser.Alike.bind (f := Option.map Stmt.still)
    (orElse (word fun _ => .pure rfl) (h.simpleStatement.map fun _ => rfl)) fun start => (nextIs _).bind fun _ =>
    iteBind (f := Option.map Expr.still) (.pure rfl) (h.expression.map fun _ => rfl) fun _ => word fun _ =>
    (nextIs _).bind fun _ => iteBind (f := Option.map Expr.still) (.pure rfl) (h.expression.map fun _ => rfl) fun _ =>
    word fun _ => hs.bind fun _ => .pure ?_
  cases start <;> rfl

theorem tryCall : Unplaced Stmt.still (r.tryCall statement) := by
  have clause : Unplaced CatchClause.still (r.catchClause statement) :=
    word fun _ => name.optional.bind fun _ => h.params.optional.bind fun _ => (block hs).bind fun _ => .pure rfl
  have outs : Unplaced (List.map Param.still) (do
      let _ ← Parser.fixed "returns"
      let _ ← Parser.fixed "("
      let ps ← r.params
      let _ ← Parser.fixed ")"
      return ps) :=
    word fun _ => word fun _ => h.params.bind fun _ => word fun _ => .pure rfl
  refine word fun _ => (h.expr _ _).bind fun _ => outs.optional.bind fun _ => (block hs).bind fun _ =>
    clause.many1.bind fun clauses => .pure ?_
  rw [Stmt.still,CatchClause.stills_eq]
  rfl

theorem statementWith : Unplaced Stmt.still (r.statementWith statement) := by
  refine orElse (block hs) <| orElse h.simpleStatement <| orElse (h.branch hs) <| orElse (h.forLoop hs) <| orElse ?_ <|
    orElse ?_ <| orElse (orElse ?_ ?_) <| orElse (h.tryCall hs) <| orElse ?_ <| orElse ?_ <| orElse ?_ ?_
  · exact word fun _ => h.condition.bind fun _ => hs.bind fun _ => .pure rfl
  · exact word fun _ => hs.bind fun _ => word fun _ => h.condition.bind fun _ => word fun _ => .pure rfl
  · exact word fun _ => word fun _ => .pure rfl
  · exact word fun _ => word fun _ => .pure rfl
  · exact word fun _ => (nextIs _).bind fun _ => iteBind (f := Option.map Expr.still) (.pure rfl)
      (h.expression.map fun _ => rfl) fun _ => word fun _ => .pure rfl
  · exact word fun _ => (h.expr _ _).bind fun _ => h.args.bind fun _ => word fun _ => .pure rfl
  · exact word fun _ => (h.expr _ _).bind fun _ => h.args.bind fun _ => word fun _ => .pure rfl
  · exact word fun _ => Parser.Alike.bind (optional (fixed _)) fun _ => word fun _ => remaining.bind fun n =>
      (Assembly.statement_unplaced n).many.bind fun _ => word fun _ => .pure rfl

end

theorem statement (n : Nat) : Unplaced Stmt.still (r.statement n) := by
  induction n with
  | zero => exact .fail
  | succ _ ih => exact h.statementWith ih

/-! ### Declarations -/

omit h in
theorem mutability : Unplaced Mark.still mutability :=
  (oneOf _).bind fun _ => .pure rfl

omit h in
theorem keyword (words : List String) : Unplaced Mark.still (keyword words) :=
  (oneOf words).bind fun _ => .pure rfl

theorem invocation : Unplaced Mark.still r.invocation :=
  here.bind fun _ => path.bind fun _ => h.args.optional.bind fun _ => .pure rfl

omit h in
theorem override : Unplaced Mark.still override := by
  refine word fun _ => Parser.Alike.bind (f := Option.map (List.map (List.map Word.still)))
    (optional (word fun _ => (path.separated _).bind fun _ => word fun _ => .pure rfl)) fun paths => .pure ?_
  cases paths <;> rfl

omit h in
theorem body {statement : Parser Stmt} (hs : Unplaced Stmt.still statement) :
    Unplaced (Option.map Stmt.still) (body statement) :=
  orElse (word fun _ => .pure rfl) ((block hs).map fun _ => rfl)

section

variable {statement : Parser Stmt} (hs : Unplaced Stmt.still statement)
include hs

theorem function : Unplaced Decl.still (r.function statement) := by
  refine word fun _ => Parser.Alike.bind (f := Prod.map id Word.still) (orElse (name.bind fun _ => .pure rfl)
    ((oneOf _).bind fun _ => .pure rfl)) fun _ => h.params.bind fun _ => Parser.Alike.bind (many ?_) fun _ =>
    h.returns.optional.bind fun _ => (body hs).bind fun _ => .pure rfl
  exact orElse ((oneOf _).bind fun _ => .pure rfl) <| orElse mutability <| orElse h.invocation <| orElse (keyword _) override

end

variable {statement : Parser Stmt}

omit h in
theorem enum : Unplaced Decl.still enum := by
  refine word fun _ => name.bind fun _ => word fun _ => name.optional.bind fun first =>
    Parser.Alike.bind (many (word fun _ => name)) fun _ => word fun _ => .pure ?_
  cases first <;> simp [Decl.still,Word.still]

theorem struct : Unplaced Decl.still r.struct := by
  refine word fun _ => name.bind fun _ => word fun _ => Parser.Alike.bind (f := List.map Member.still) (many1 ?_) fun _ =>
    word fun _ => .pure rfl
  exact here.bind fun _ => h.type.bind fun _ => name.bind fun _ => word fun _ => .pure rfl

omit h in
theorem valueType : Unplaced Decl.still valueType :=
  word fun _ => name.bind fun _ => word fun _ => elementary.bind fun _ => word fun _ => .pure rfl

theorem error : Unplaced Decl.still r.error := by
  refine word fun _ => name.bind fun _ => word fun _ => Parser.Alike.bind (f := List.map ErrorParam.still) (commaList ?_ _)
    fun _ => word fun _ => word fun _ => .pure rfl
  exact here.bind fun _ => h.annotated.bind fun _ => name.optional.bind fun _ => .pure rfl

theorem part (hs : Unplaced Stmt.still statement) : Unplaced Decl.still (r.part statement) := by
  refine orElse ?_ <| orElse (h.function hs) <| orElse ?_ <| orElse ?_ <| orElse ?_ <| orElse h.struct <| orElse enum <|
    orElse valueType <| orElse ?_ <| orElse ?_ <| orElse h.error ?_
  · exact word fun _ => h.params.bind fun _ => Parser.Alike.bind (many (orElse h.invocation (keyword _))) fun _ =>
      (block hs).bind fun _ => .pure rfl
  · exact word fun _ => name.bind fun _ => h.params.bind fun _ => Parser.Alike.bind (many (orElse (keyword _) override)) fun _ =>
      (body hs).bind fun _ => .pure rfl
  · exact word fun _ => h.params.optional.bind fun _ =>
      Parser.Alike.bind (many (orElse (keyword _) <| orElse mutability <| orElse h.invocation override)) fun _ =>
      h.returns.optional.bind fun _ => (body hs).bind fun _ => .pure rfl
  · exact word fun _ => word fun _ => word fun _ =>
      Parser.Alike.bind (many (orElse (keyword _) <| orElse h.invocation override)) fun _ => (body hs).bind fun _ => .pure rfl
  · exact here.bind fun _ => Parser.Alike.bind (many (fixed _)) fun _ => h.annotated.bind fun _ =>
      Parser.Alike.bind (many (orElse (keyword _) override)) fun _ => name.bind fun _ => h.value.bind fun _ => word fun _ => .pure rfl
  · refine word fun _ => name.bind fun _ => word fun _ => Parser.Alike.bind (f := List.map EventParam.still) (commaList ?_ _)
      fun _ => word fun _ => Parser.Alike.bind (optional (fixed _)) fun _ => word fun _ => .pure rfl
    exact here.bind fun _ => h.annotated.bind fun _ => Parser.Alike.bind (optional (fixed _)) fun _ =>
      name.optional.bind fun _ => .pure rfl
  · exact word fun _ => path.bind fun _ => word fun _ => Parser.Alike.bind (f := Option.map TypeName.still)
      (orElse (word fun _ => .pure rfl) (h.type.map fun _ => rfl)) fun _ => word fun _ => .pure rfl

theorem parts (hs : Unplaced Stmt.still statement) : Unplaced Decl.stills (r.parts statement) := by
  rw [funext Decl.stills_eq]
  exact word fun _ => (h.part hs).many.bind fun _ => word fun _ => .pure rfl

omit h in
theorem pragma : Unplaced Decl.still pragma := by
  have constraint : Unplaced id versionConstraint := by
    refine Parser.Alike.bind (optional (oneOf _)) fun sign => (kind (by rfl)).bind fun _ => .pure ?_
    cases sign <;> rfl
  refine word fun _ => (oneOf _).bind fun _ => constraint.bind fun _ => constraint.optional.bind fun second => word fun _ => .pure ?_
  cases second <;> rfl

omit h in
theorem importFile : Unplaced Decl.still importFile := by
  have renamed : Unplaced (Option.map Word.still) renamed := optional (word fun _ => name)
  refine word fun _ => Parser.Alike.bind (f := Prod.map Word.still (Option.map Word.still))
    (orElse ?_ <| orElse ?_ ?_) fun _ => word fun _ => .pure rfl
  · exact (kind (by rfl)).bind fun _ => renamed.bind fun _ => .pure rfl
  · exact word fun _ => Parser.Alike.bind (separated (name.bind fun _ => renamed) _) fun _ => word fun _ => word fun _ =>
      (kind (by rfl)).bind fun _ => .pure rfl
  · exact word fun _ => word fun _ => name.bind fun _ => word fun _ => (kind (by rfl)).bind fun _ => .pure rfl

theorem topLevel (hs : Unplaced Stmt.still statement) : Unplaced Decl.still (r.topLevel statement) := by
  refine orElse pragma <| orElse importFile <| orElse ?_ <| orElse ?_ <| orElse ?_ <| orElse (h.function hs) <| orElse ?_ <|
    orElse h.struct <| orElse enum <| orElse valueType h.error
  · exact word fun _ => name.bind fun _ => (h.parts hs).bind fun _ => .pure rfl
  · have base : Unplaced Base.still r.base := here.bind fun _ => path.bind fun _ => h.args.optional.bind fun _ => .pure rfl
    refine word fun _ => name.bind fun _ => Parser.Alike.bind (optional (word fun _ => base.separated _)) fun bases =>
      (h.parts hs).bind fun _ => .pure ?_
    cases bases <;> rfl
  · exact word fun _ => name.bind fun _ => (h.parts hs).bind fun _ => .pure rfl
  · exact here.bind fun _ => h.annotated.bind fun _ => word fun _ => name.bind fun _ => word fun _ =>
      h.expression.bind fun _ => word fun _ => .pure rfl

theorem source (hs : Unplaced Stmt.still statement) : Unplaced Source.still (r.source statement) := by
  refine orElse (word fun _ => orElse ?_ <| orElse ?_ <| orElse ?_ ?_) ?_
  · exact h.type.bind fun _ => finish.bind fun _ => .pure rfl
  · exact h.expression.closely.bind fun _ => finish.bind fun _ => .pure rfl
  · exact hs.closely.bind fun _ => finish.bind fun _ => .pure rfl
  · exact (h.part hs).bind fun _ => finish.bind fun _ => .pure rfl
  · exact here.bind fun _ => (h.topLevel hs).many.closely.bind fun _ => finish.bind fun _ => .pure rfl

end Rules.Placeless

/-! ### Sources -/

variable {ts : List Token} {s : Source}

theorem Source.ofTokens_still (h : Source.ofTokens ts = .ok s) : Source.ofTokens (ts.map Token.still) = .ok s.still := by
  have rules := Rules.placeless_depth ts.length
  unfold ofTokens
  rw [List.length_map]
  exact (rules.source (rules.statement _)).run_ok h

theorem Source.exists_of_still (h : Source.ofTokens (ts.map Token.still) = .ok s) :
    ∃ s', Source.ofTokens ts = .ok s' ∧ s'.still = s := by
  have rules := Rules.placeless_depth ts.length
  unfold ofTokens at h
  rw [List.length_map] at h
  exact (rules.source (rules.statement _)).run h

/-- A type or an expression on its own: what is tried first on a source. -/
def Rules.piece (r : Rules) : Parser Source := do
  let start ← Parser.fixed "SOL"
  (do let t ← r.type; Parser.finish; return .type start.pos t)
    <|> (do let e ← Parser.closely r.expression; Parser.finish; return .expression start.pos e)

theorem Source.ofTokens_of_still (h : (Rules.depth ts.length).piece.run (ts.map Token.still) = .ok s) :
    ∃ s', Source.ofTokens ts = .ok s' ∧ s'.still = s := by
  have first (r : Rules) (statement : Parser Stmt) : r.piece.Within (r.source statement) :=
    (Parser.Within.bind fun _ => .orElse (.left _ _)).trans (.left _ _)
  refine exists_of_still ?_
  unfold ofTokens
  rw [List.length_map]
  exact (first _ _).run h

end Surface
end Confidential
