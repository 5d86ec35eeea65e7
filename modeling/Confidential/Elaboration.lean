import Confidential.Node.Construction
import Confidential.Report
import Confidential.Surface

/-!
From concrete to abstract syntax. What the grammar allows and the language does not is refused
here: reserved names, assignments inside of expressions, types without support.
-/

namespace Confidential

structure Elaboration where
  lines : List String
  text : List Char

namespace Elaboration

def infoAt (p : Pos) : Info :=
  { line := p.line, column := p.column }

def infoOfSign (p : Pos) : Info :=
  { line := p.line, column := (p.column : Int) - 1 }

def placedAt (p : Pos) (n : Node) : Node :=
  n.placed p.line p.column

variable {α : Type} (cx : Elaboration)

def refuse (p : Pos) (message : String) : Outcome α := do
  let place ← Report.location p.line p.column cx.lines none none none
  .error (.malformed (place ++ "\n" ++ message))

def isBefore (p q : Pos) : Bool :=
  p.line < q.line || p.line == q.line && p.column < q.column

def cut (first last : Pos) : Pos → List Char → List Char
  | _, [] => []
  | p, c :: rest =>
    if isBefore p first then cut first last (p.after c) rest
    else if p = last then [c]
    else c :: cut first last (p.after c) rest

def reservedPrefix : String := "zk"

def reservedSuffix : String := "_zalt"

/-- Names with this start or end are kept for generated code. -/
def identifier (w : Surface.Word) : Outcome Node :=
  if Text.startsWith reservedPrefix w.text || Text.startsWith ("_" ++ reservedPrefix) w.text then
    cx.refuse w.pos s!"Identifiers must not start with reserved prefix _?{reservedPrefix}"
  else if Text.endsWith reservedSuffix w.text then
    cx.refuse w.pos s!"Identifiers must not end with reserved suffix {reservedPrefix}"
  else .ok (.identifier (infoAt w.pos) w.text)

def optionalIdentifier : Option Surface.Word → Outcome Node
  | some w => cx.identifier w
  | none => .ok .omitted

def elementary (w : Surface.Word) : Outcome Node := do
  let i := infoAt w.pos
  let t := w.text
  if t == "address" then return Node.addressType.withInfo i
  if t == "address payable" then return Node.addressPayableType.withInfo i
  if t == "bool" then return .elementary i (.bool t)
  if Text.startsWith "int" t then return .elementary i (← Elementary.ofIntName t)
  if Text.startsWith "uint" t then return .elementary i (← Elementary.ofUintName t)
  if Text.startsWith "bytes" t then return .elementary i (← Elementary.ofBytesName t)
  if t == "string" then return .elementary i .string
  if t == "var" then cx.refuse w.pos "Use of unsupported var keyword"
  cx.refuse w.pos s!"Use of unsupported type '{t}'."

/-- A number. Powers of ten are refused, and so are numbers that no type can hold. -/
def number (i : Info) (hexadecimal : Bool) (digits : String) : Outcome Node :=
  let value? := if hexadecimal then Text.natural? 16 (digits.toList.drop 2)
    else Text.natural? 10 digits.toList
  match value? with
  | none => .error (.badValue none)
  | some v =>
    if Literal.isAccepted v then .ok (.number i v hexadecimal (some digits) none)
    else .error .violated

/-- A quoted text without its quotes. Between double quotes an escaped double quote loses its
backslash. -/
def unquoted (written : String) : String :=
  let inner := Text.dropLast 1 (Text.dropFirst 1 written)
  if Text.startsWith "\"" written then Text.replace "\\\"" "\"" inner else inner

def operation (p : Pos) (sign : Info) (op : String) (operands : List Node) : Outcome Node := do
  return .call (infoAt p) (.builtin sign (← Operator.named op)) (.arguments {} operands false) false

def comma (taken : Bool) (rest : List α) : List Node :=
  if taken && !rest.isEmpty then [.omitted] else []

def callOf (p : Pos) (callee args : Node) : Outcome Node :=
  match callee, args with
  | .name _ (.identifier _ "reveal"), .arguments _ values _ =>
    match values with
    | [value,owner] => .ok (.reveal (infoAt p) value owner)
    | _ => .error .absent
  | _, _ => .ok (.call (infoAt p) callee args false)

def isOwner : Node → Bool
  | .owner .. | .name .. => true
  | _ => false

def annotatedOf (p : Pos) (owner? : Option (Pos × Outcome Node))
    (type : Unit → Outcome Node) : Outcome Node := do
  match owner? with
  | none => return .annotated (infoAt p) (← type ()) false (.owner {} .all)
  | some (ownerPos,owner) =>
    let o ← owner
    if isOwner o then return .annotated (infoAt p) (← type ()) true o
    cx.refuse ownerPos "Privacy annotation can only be me | all | tee| Identifier"

def words (ws : List Surface.Word) : List Node :=
  ws.map fun w => .plain (.text w.text)

end Elaboration

open Elaboration

namespace Surface

variable (cx : Elaboration)

mutual

/-- The node of an expression. Only at the `top` of a statement an expression may assign. -/
def Expr.toNode (top : Bool) : Expr → Outcome Node
  | .owner p who => .ok (.owner (infoAt p) who)
  | .index p base key => do
    let b ← Expr.toNode false base
    if !b.isLocation then cx.refuse base.pos "Expression cannot be indexed"
    let k ← match key with
      | some k => Expr.toNode false k
      | none => pure .omitted
    return .index (infoAt p) b k
  | .range p head base first last => do
    let b ← Expr.toNode false base
    match first with
    | some i =>
      -- A slice with a lower bound has no place of its own.
      let _ ← Expr.toNode false i
      let _ ← match last with
        | some j => Expr.toNode false j
        | none => pure .omitted
      .error .absent
    | none =>
      let j ← match last with
        | some j => Expr.toNode false j
        | none => pure .omitted
      return .range (infoAt p) b (.plain (.text head)) j
  | .member p base label => do
    let b ← Expr.toNode false base
    let m ← match label with
      | some w => cx.identifier w
      | none => pure (.identifier {} "address")
    if !b.isLocation then .error .violated
    return .member (infoAt p) b m
  | .options p callee args => do
    let f ← Expr.toNode false callee
    return .call (infoAt p) f (.arguments {} (← NamedArg.toNodes args) false) true
  | .call p callee args => do
    let f ← Expr.toNode false callee
    callOf p f (← Args.toNode args)
  | .payable p args => do
    return .call (infoAt p) (.name {} (.identifier {} "payable")) (← Args.toNode args) false
  | .metaType p type => do return .metaType (infoAt p) (← TypeName.toNode type)
  | .step p after sign operand => do
    if !top then
      let kind := if after then "post" else "pre"
      cx.refuse p (kind ++ "-crement expressions are only allowed as statements")
    let change ← operation sign.pos (infoOfSign sign.pos) (if sign.text == "++" then "+" else "-")
      [← Expr.toNode false operand,.number (infoAt sign.pos) 1 false none none]
    let e ← Expr.toNode false operand
    return .assign (infoAt p) false e change ((if after then "post" else "pre") ++ sign.text)
  | .unary p sign operand => do
    let op := if sign.text == "+" || sign.text == "-" then "sign" ++ sign.text else sign.text
    operation p (infoOfSign sign.pos) op [← Expr.toNode false operand]
  | .binary p sign left right => do
    let l ← Expr.toNode false left
    let r ← Expr.toNode false right
    operation p (infoOfSign sign.pos) sign.text [l,r]
  | .conditional p condition yes no => do
    let c ← Expr.toNode false condition
    let y ← Expr.toNode false yes
    let n ← Expr.toNode false no
    operation p {} "ite" [c,y,n]
  | .assign p sign left right => do
    if !top then cx.refuse p "Assignments are only allowed as statements"
    let l ← Expr.toNode false left
    let r ← Expr.toNode false right
    let op := Text.dropLast 1 sign.text
    if op.isEmpty then return .assign (infoAt p) false l r ""
    let value ← operation right.pos (infoOfSign sign.pos) op [← Expr.toNode false left,r]
    return .assign (infoAt p) false l value op
  | .create p type => do return .create (infoAt p) (← TypeName.toNode type)
  | .tuple p components => do
    return .tuple (infoAt p) (← Expr.toElements true components)
  | .inlineArray p elements => do return .inlineArray (infoAt p) (← Expr.toNodes elements)
  | .name w => do return .name (infoAt w.pos) (← cx.identifier w)
  | .truth p value => .ok (.truth (infoAt p) value)
  | .number p hexadecimal digits => Elaboration.number (infoAt p) hexadecimal digits
  | .quoted p written => .ok (.text (infoAt p) (unquoted written))
  | .elementary w => cx.elementary w

def Expr.toNodes : List Expr → Outcome (List Node)
  | [] => .ok []
  | e :: rest => do
    let n ← Expr.toNode false e
    return n :: (← Expr.toNodes rest)

/-- Every second one of the things between the brackets, commas included: an expression, or nothing
if it is a comma. Whether the next thing is taken is `taken`; what is passed over is not looked
at. -/
def Expr.toElements (taken : Bool) :
    List (Option Expr) → Outcome (List Node)
  | [] => .ok []
  | none :: rest => do
    return comma taken rest ++ (← Expr.toElements (!taken) rest)
  | some e :: rest => do
    let here ← if taken then List.singleton <$> Expr.toNode false e else pure []
    return here ++ comma (!taken) rest ++ (← Expr.toElements taken rest)

def Args.toNode : Args → Outcome Node
  | .positional p values => do return .arguments (infoAt p) (← Expr.toNodes values) false
  | .named p values => do
    -- Empty braces stand for no arguments at all.
    return .arguments (infoAt p) (← NamedArg.toNodes values) (!values.isEmpty)

def NamedArg.toNode : NamedArg → Outcome Node
  | .mk label value => do
    return .namedArgument (infoAt label.pos) label.text (← Expr.toNode false value)

def NamedArg.toNodes : List NamedArg → Outcome (List Node)
  | [] => .ok []
  | a :: rest => do
    let n ← NamedArg.toNode a
    return n :: (← NamedArg.toNodes rest)

def TypeName.toNode : TypeName → Outcome Node
  | .elementary w => cx.elementary w
  | .function p parameters visibility mutability returns => do
    let ps ← match parameters with
      | some ps => some <$> Param.toNodes .parameter ps
      | none => pure none
    let rs ← match returns with
      | some rs => some <$> Param.toNodes .parameter rs
      | none => pure none
    return .functionType (infoAt p) ps (words (visibility ++ mutability)) rs
  | .path names => do
    let ns ← names.mapM cx.identifier
    return .userType ((names.head?.map fun w => infoAt w.pos).getD {}) .plain ns
  | .array p element size => do
    let t ← TypeName.toNode element
    let n ← match size with
      | some e => Expr.toNode false e
      | none => pure .omitted
    return .arrayType (infoAt p) t n
  | .mapping p key label value => do
    let k ← cx.elementary key
    let l ← cx.optionalIdentifier label
    return .mapping (infoAt p) k l (← Annotated.toNode value)

def Annotated.toNode : Annotated → Outcome Node
  | .mk p type (some owner) =>
    annotatedOf cx p (some (owner.pos,Expr.toNode false owner)) fun _ => TypeName.toNode type
  | .mk p type none => annotatedOf cx p none fun _ => TypeName.toNode type

def Param.toNode (kind : DeclKind) : Param → Outcome Node
  | .mk p isFinal type storage label => do
    let t ← Annotated.toNode type
    let n ← cx.optionalIdentifier label
    return .declaration (infoAt p) kind (if isFinal then ["final"] else []) t n storage

def Param.toNodes (kind : DeclKind) : List Param → Outcome (List Node)
  | [] => .ok []
  | p :: rest => do
    let n ← Param.toNode kind p
    return n :: (← Param.toNodes kind rest)

end

def Expr.toOptional : Option Expr → Outcome Node
  | some e => e.toNode cx false
  | none => .ok .omitted

def Expr.toRequired : Option Expr → Outcome Node
  | some e => e.toNode cx false
  | none => .error .absent

def Args.toRequired : Option Args → Outcome Node
  | some a => a.toNode cx
  | none => .error .absent

def Param.toOptional : Option (List Param) → Outcome (Option (List Node))
  | some ps => some <$> Param.toNodes cx .parameter ps
  | none => .ok none

/-- A block stands for itself, and any other statement makes a block of its own. -/
def asBlock (n : Node) : Node :=
  if n.isBlock then n else .statements {} (.block true) [n]

def requireOf (i : Info) (condition remark : Node) : Outcome Node := do
  let n := Node.require i condition remark ""
  return .require i condition remark (← n.code {})

def statementOf (p : Pos) (e : Node) : Outcome Node := do
  if e.isStatement then return e
  match e with
  | .call _ (.name _ (.identifier _ "require")) (.arguments i values named) _ =>
    match values with
    | [c] => requireOf (infoAt p) c .omitted
    | [c,remark] => requireOf (infoAt p) c remark
    | _ =>
      let shown ← (Node.arguments i values named).code {}
      cx.refuse p ("Invalid number of arguments for require: " ++ shown)
  | e =>
    if !e.isExpression then .error .violated
    return .expressionStatement (infoAt p) e

/-- What changes a loop variable; an expression that changes nothing becomes a statement. -/
def updateOf (e : Node) : Node :=
  if e.isExpression then .expressionStatement {} e else e

mutual

def Stmt.toNode : Stmt → Outcome Node
  | .block p body => do return .statements (infoAt p) (.block false) (← Stmt.toNodes body)
  | .variable p decl value => do
    let d ← decl.toNode cx .variable
    return .variableStatement (infoAt p) d (← Expr.toOptional cx value)
  | .expression p value => do statementOf cx p (← value.toNode cx true)
  | .declarations p decls value => do
    let ds ← decls.mapM fun d =>
      match d with
      | some d => d.toNode cx .variable
      | none => pure .omitted
    return .variablesStatement (infoAt p) ds (← value.toNode cx false)
  | .branch p condition yes no => do
    let c ← condition.toNode cx false
    let y ← Stmt.toNode yes
    let n ← match no with
      | some s => asBlock <$> Stmt.toNode s
      | none => pure .omitted
    return .branch (infoAt p) c (asBlock y) n
  | .forLoop p start condition update body => do
    let s ← match start with
      | some s => Stmt.toNode s
      | none => pure .omitted
    let c ← Expr.toRequired cx condition
    let u ← match update with
      | some e => updateOf <$> e.toNode cx true
      | none => pure .omitted
    return .forLoop (infoAt p) s c u (asBlock (← Stmt.toNode body))
  | .whileLoop p condition body => do
    let c ← condition.toNode cx false
    return .whileLoop (infoAt p) c (asBlock (← Stmt.toNode body))
  | .doWhileLoop p body condition => do
    let b ← Stmt.toNode body
    return .doWhileLoop (infoAt p) (asBlock b) (← condition.toNode cx false)
  | .continueLoop p => .ok (.continueLoop (infoAt p))
  | .breakLoop p => .ok (.breakLoop (infoAt p))
  | .tryCall p guarded returns body clauses => do
    let e ← guarded.toNode cx false
    let rs ← Param.toOptional cx returns
    let b ← Stmt.toNode body
    return .tryCall (infoAt p) e (rs.getD []) b (← CatchClause.toNodes clauses)
  | .returnValue p value => do return .returnValue (infoAt p) (← Expr.toOptional cx value)
  | .emit p signal args => do
    let e ← signal.toNode cx false
    return .emit (infoAt p) e (← args.toNode cx)
  | .revert p failure args => do
    let e ← failure.toNode cx false
    return .revert (infoAt p) e (← args.toNode cx)
  | .assembly p last => .ok (.assembly (infoAt p) (String.ofList (cut p last .first cx.text)))

def Stmt.toNodes : List Stmt → Outcome (List Node)
  | [] => .ok []
  | s :: rest => do
    let n ← Stmt.toNode s
    return n :: (← Stmt.toNodes rest)

def CatchClause.toNode : CatchClause → Outcome Node
  | .mk p label parameters body => do
    let n ← cx.optionalIdentifier label
    let ps ← Param.toOptional cx parameters
    return .catchClause (infoAt p) n (ps.getD []) (← Stmt.toNode body)

def CatchClause.toNodes : List CatchClause → Outcome (List Node)
  | [] => .ok []
  | c :: rest => do
    let n ← CatchClause.toNode c
    return n :: (← CatchClause.toNodes rest)

end

namespace Mark

variable (marks : List Mark)

def keywords : List Node :=
  marks.filterMap fun m => match m with
    | .keyword w => some (.plain (.text w.text))
    | _ => none

def visibilities : List Node :=
  marks.filterMap fun m => match m with
    | .visibility w => some (.plain (.text w.text))
    | _ => none

def mutabilities : List Node :=
  marks.filterMap fun m => match m with
    | .mutability w => some (.plain (.text w.text))
    | _ => none

def invocations : Outcome (List Node) :=
  (marks.filterMap fun m => match m with
    | .invocation p path args => some (p,path,args)
    | _ => none).mapM fun (p,path,args) => do
      return Node.invocation (infoAt p) (path.map (·.text)) (← Args.toRequired cx args)

def overrides : List Node :=
  marks.filterMap fun m => match m with
    | .override p paths => some (.override (infoAt p) (paths.map fun ws => ws.map (·.text)))
    | _ => none

/-- The marks of a function by family: keywords, visibility, mutability, modifiers and overrides. -/
def toNodes : Outcome (List Node) := do
  return keywords marks ++ visibilities marks ++ mutabilities marks ++ (← invocations cx marks)
    ++ overrides marks

end Mark

def Stmt.toOptional : Option Stmt → Outcome Node
  | some s => s.toNode cx
  | none => .ok .omitted

def EventParam.toNode : EventParam → Outcome Node
  | .mk p type indexed label => do
    let t ← type.toNode cx
    return .eventParameter (infoAt p) t (indexed.map (·.text)) (← cx.optionalIdentifier label)

def ErrorParam.toNode : ErrorParam → Outcome Node
  | .mk p type label => do
    let t ← type.toNode cx
    return .errorParameter (infoAt p) t (← cx.optionalIdentifier label)

def Member.toNode : Member → Outcome Node
  | .mk p type label => do
    let n ← cx.identifier label
    let t ← type.toNode cx
    return .declaration (infoAt p) .variable [] (.annotated {} t false (.owner {} .all)) n none

def Base.toNode : Base → Outcome Node
  | .mk p path args => do
    return .inheritance (infoAt p) (path.map (·.text)) (← Args.toRequired cx args)

def plainIdentifier (what : String) (w : Word) : Outcome Node := do
  let n ← cx.identifier w
  if w.text.toList.contains '$' then
    cx.refuse w.pos ("$ is not allowed in zkay " ++ what ++ " identifiers")
  return n

mutual

def Decl.toNode : Decl → Outcome Node
  | .constructor p parameters marks body => do
    let ps ← Param.toNodes cx .parameter parameters
    let ms ← Mark.toNodes cx marks
    return .function (infoAt p) (.identifier {} "constructor") (some ps) ms [] (← body.toNode cx)
      .constructor
  | .function p special label parameters marks returns body => do
    let n ← if special then pure (.identifier {} label.text) else cx.identifier label
    let ps ← Param.toNodes cx .parameter parameters
    let ms ← Mark.toNodes cx marks
    let rs ← Param.toOptional cx returns
    return .function (infoAt p) n (some ps) ms (rs.getD []) (← Stmt.toOptional cx body) .function
  | .modifier p label parameters marks body => do
    let n ← cx.identifier label
    let ps ← Param.toNodes cx .parameter parameters
    return .modifier (infoAt p) n ps (!(Mark.keywords marks).isEmpty) (Mark.overrides marks)
      (← Stmt.toOptional cx body)
  | .fallback p parameters marks returns body => do
    let ps ← Param.toOptional cx parameters
    let rs ← Param.toOptional cx returns
    let b ← Stmt.toOptional cx body
    let ms ← Mark.toNodes cx marks
    return .function (infoAt p) (.identifier {} "fallback") ps ms (rs.getD []) b .fallback
  | .receive p marks body => do
    let b ← Stmt.toOptional cx body
    let ms ← Mark.toNodes cx marks
    return .function (infoAt p) (.identifier {} "receive") (some []) ms [] b .receive
  | .struct p label members => do
    let n ← cx.identifier label
    return .struct (infoAt p) n (← members.mapM (·.toNode cx))
  | .enum p label values => do
    let n ← plainIdentifier cx "enum" label
    return .enum (infoAt p) n (← values.mapM fun w => do
      return .enumValue (infoAt w.pos) (← plainIdentifier cx "enum value" w))
  | .valueType p label type => do
    let n ← cx.identifier label
    return .valueType (infoAt p) n (← cx.elementary type)
  | .stateVariable p finals type marks label value => do
    let t ← type.toNode cx
    let n ← cx.identifier label
    let keywords := finals.map (·.text) ++ marks.filterMap fun m => match m with
      | .keyword w => some w.text
      | _ => none
    return .stateVariable (infoAt p) t keywords n (← Expr.toOptional cx value) .omitted
  | .event p label parameters anonymous => do
    let n ← cx.identifier label
    return .event (infoAt p) n (← parameters.mapM (·.toNode cx)) (anonymous.map (·.text))
  | .error p label parameters => do
    let n ← cx.identifier label
    return .error (infoAt p) n (← parameters.mapM (·.toNode cx))
  | .using p path type => do
    match type with
    | some t => return .using (infoAt p) (path.map (·.text)) (← t.toNode cx)
    | none => .error .absent
  | .pragma p label version => .ok (.pragma (infoAt p) label.text version)
  | .importFile p path unitName => do
    return .importFile (infoAt p) path.text (← cx.optionalIdentifier unitName) .omitted
  | .contract p label parts => do
    let n ← cx.identifier label
    return .contract (infoAt p) n (← Decl.toNodes parts) [] []
  | .interface p label bases parts => do
    let n ← cx.identifier label
    let bs ← bases.mapM (·.toNode cx)
    return .interface (infoAt p) n bs (← Decl.toNodes parts)
  | .library p label parts => do
    let n ← cx.identifier label
    return .library (infoAt p) n (← Decl.toNodes parts)
  | .constant p type label value => do
    let t ← type.toNode cx
    let n ← cx.identifier label
    return .stateVariable (infoAt p) t ["constant"] n (← value.toNode cx false) .omitted

def Decl.toNodes : List Decl → Outcome (List Node)
  | [] => .ok []
  | d :: rest => do
    let n ← Decl.toNode d
    return n :: (← Decl.toNodes rest)

end

/-- A source unit. A piece of syntax on its own counts as starting where the source starts. -/
def Source.toNode : Source → Outcome Node
  | .unit p parts => do return .source (infoAt p) (← Decl.toNodes cx parts) [] .omitted
  | .type p t => do
    return .source (infoAt p) [] [] (placedAt p (← t.toNode cx))
  | .expression p e => do
    return .source (infoAt p) [] [] (placedAt p (← e.toNode cx false))
  | .statement p s => do
    return .source (infoAt p) [] [] (placedAt p (← s.toNode cx))
  | .part p d => do
    return .source (infoAt p) [] [] (placedAt p (← d.toNode cx))

end Surface
end Confidential
