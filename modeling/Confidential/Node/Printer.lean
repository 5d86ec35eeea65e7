import Confidential.Node
import Confidential.Text.Lines

/-!
The text of a node. In the Solidity style owners, labels and reveals are left out.
-/

namespace Confidential

structure Style where
  solidity : Bool := false
  indentation : String := "    "
  version : String := "^0.8.0"
  /-- Numbers of the expressions that are known to hold private values. Assignments to them are
  written without a compound sign. -/
  isPrivate : Nat → Bool := fun _ => false

def Elementary.name : Elementary → String
  | .named n | .bool n | .boolLiteral n | .number n _ _ | .int n _ | .uint n _ | .bytes n _ => n
  | .numberLiteral v => toString v
  | .string => "string"

namespace Node

def braces (s : String) : String :=
  "\x7b\n" ++ s ++ "\n\x7d"

def commentText (text : String) : String :=
  if text.isEmpty then ""
  else if Text.contains "\n" text then "/* " ++ text ++ " */"
  else "// " ++ text

def numberText (value : Int) (hexadecimal : Bool) (source unit : Option String) : String :=
  match source with
  | some s => s
  | none =>
    (if hexadecimal then Text.hex value else toString value) ++
      match unit with
      | some u => if u.isEmpty then "" else " " ++ u
      | none => ""

def isUntyped : Node → Bool
  | .callOptions _ _ _ | .metaType _ _ | .create _ _ | .range _ _ _ _ => true
  | .userType _ _ _ | .mapping _ _ _ _ | .arrayType _ _ _ | .tupleType _ _ | .functionType _ _ _ _
  | .omitted | .plain _ | .identifier _ _ => true
  | _ => false

def writtenSign (style : Style) (left : Node) (op : String) : Outcome String :=
  if left.isUntyped then .error .absent
  else .ok (if style.isPrivate left.id then "" else op)

def assignmentText (left op right : String) : String :=
  if Text.startsWith "pre" op then Text.dropFirst 3 op ++ left ++ ";"
  else if Text.startsWith "post" op then left ++ Text.dropFirst 4 op ++ ";"
  else left ++ " " ++ op ++ "= " ++ right ++ ";"

def slicesText (left right op : String) (leftStart rightStart : Int) (leftOffset rightOffset : String)
    (size : Int) : String :=
  String.intercalate "\n" ((List.range size.toNat).map fun (k : Nat) =>
    assignmentText s!"{left}[{leftOffset}{leftStart + k}]" op
      s!"{right}[{rightOffset}{rightStart + k}]")

def keywordsText (style : Style) (keywords : List String) : List String :=
  keywords.filter fun k => !style.solidity || k != "final"

def wordOr (n : Node) (written : Outcome String) : Outcome String :=
  match n with
  | .plain (.text t) => .ok t
  | _ => written

/-- Nothing for an empty place, and any other node for its text. -/
def nothingOr (n : Node) (written : Outcome String) : Outcome String :=
  if n.isOmitted then .ok "" else written

def offsetOf (n : Node) (written : Outcome String) : Outcome String :=
  if n.isOmitted then .ok "" else written.map (· ++ " + ")

mutual

/-- The text of a node. An empty place is written `None`, and plain data has no text of its own. -/
def code (style : Style) : Node → Outcome String
  | .omitted => .ok "None"
  | .plain _ => .error .absent
  | .general _ _ | .builtin _ _ | .callOptions _ _ _ | .slice _ _ _ _ _
  | .declaration _ .plain _ _ _ _ => .error (.unsupported none)
  | .identifier _ label => .ok label
  | .comment _ written => .ok (commentText written)
  | .blankLine _ => .ok ""
  | .namedArgument _ key value => do return key ++ ": " ++ (← code style value)
  | .arguments _ values named => do
    let args ← codes style ", " values
    return if named then "\x7b" ++ args ++ "\x7d" else args
  | .call _ (.builtin _ op) (.arguments _ values _) _ => do
    match op.fill? (← operands style values) with
    | some written => return written
    | none => .error .outOfRange
  | .call _ (.builtin _ _) _ _ => .error .absent
  | .call _ callee args options => do
    let f ← code style callee
    let a ← code style args
    return if options then f ++ a else f ++ "(" ++ a ++ ")"
  | .metaType _ _ => .error .absent
  | .create _ type => do return "new " ++ (← code style type)
  | .cast _ type value implicit =>
    if implicit then code style value
    else do
      let t ← code style type
      return t ++ "(" ++ (← code style value) ++ ")"
  | .truth _ value => .ok (if value then "true" else "false")
  | .number _ value hexadecimal spelling unit => .ok (numberText value hexadecimal spelling unit)
  | .text _ value => .ok ("'" ++ value ++ "'")
  | .arrayLiteral _ _ values => do return "[" ++ (← codes style ", " values) ++ "]"
  | .tuple _ elements => do return "(" ++ (← codes style ", " elements) ++ ")"
  | .inlineArray _ elements => do return "[" ++ (← codes style ", " elements) ++ "]"
  | .name _ label => code style label
  | .member _ base part => do
    let b ← code style base
    return b ++ "." ++ (← code style part)
  | .index _ base .omitted => do return (← code style base) ++ "[]"
  | .index _ base key => do
    let k ← code style key
    return (← code style base) ++ "[" ++ k ++ "]"
  | .range _ base first last => do
    let _ ← code style base
    let i ← nothingOr first (code style first)
    let j ← nothingOr last (code style last)
    return "arr[" ++ i ++ ":" ++ j ++ "]"
  | .owner _ who => .ok (if style.solidity && who == .me then "msg.sender" else who.word)
  | .reveal _ value who => do
    let v ← code style value
    if style.solidity then return v
    return "reveal(" ++ v ++ ", " ++ (← code style who) ++ ")"
  | .branch _ condition yes no => do
    let c ← code style condition
    let y ← wordOr yes (code style yes)
    let head := "if (" ++ c ++ ") " ++ y
    if no.isOmitted then return head
    return head ++ "\n else " ++ (← wordOr no (code style no))
  | .whileLoop _ condition body => do
    let c ← code style condition
    return "while (" ++ c ++ ") " ++ (← wordOr body (code style body))
  | .doWhileLoop _ body condition => do
    let b ← wordOr body (code style body)
    return "do " ++ b ++ " while (" ++ (← code style condition) ++ ");"
  | .forLoop _ start condition update body => do
    let i ← if start.isOmitted then pure ";" else wordOr start (code style start)
    let c ← code style condition
    let u ← if update.isOmitted then pure ""
      else do pure (" " ++ Text.replace ";" "" (← wordOr update (code style update)))
    return "for (" ++ i ++ " " ++ c ++ ";" ++ u ++ ") " ++ (← wordOr body (code style body))
  | .breakLoop _ => .ok "break;"
  | .continueLoop _ => .ok "continue;"
  | .catchClause _ label parameters body => do
    let ps ← codes style ", " parameters
    let b ← code style body
    return "catch" ++ (if label.isOmitted then "" else " self.visit(ast.idf)") ++
      (if parameters.isEmpty then "" else "(" ++ ps ++ ")") ++ b
  | .tryCall _ guarded results body clauses => do
    let e ← code style guarded
    let rs ← codes style "\n" results
    let b ← code style body
    let cs ← codes style " " clauses
    return "try " ++ e ++ " " ++ (if results.isEmpty then "" else "returns (" ++ rs ++ ")") ++ b ++
      " " ++ cs
  | .returnValue _ .omitted => .ok "return;"
  | .returnValue _ value => do return "return " ++ (← code style value) ++ ";"
  | .emit _ signal args => do
    let e ← code style signal
    return "emit " ++ e ++ "(" ++ (← code style args) ++ ");"
  | .revert _ failure args => do
    let e ← code style failure
    return "revert " ++ e ++ "(" ++ (← code style args) ++ ");"
  | .assembly _ written => .ok written
  | .expressionStatement _ .omitted => .error .misused
  | .expressionStatement _ value => do return (← code style value) ++ ";"
  | .require _ condition remark _ => do
    let c ← code style condition
    match remark with
    | .omitted => return "require(" ++ c ++ ");"
    | .plain (.text t) =>
      return if t.isEmpty then "require(" ++ c ++ ");" else "require(" ++ c ++ ", " ++ t ++ ");"
    | remark => return "require(" ++ c ++ ", " ++ (← code { style with solidity := false } remark) ++ ");"
  | .assign _ _ left right op => do
    let sign ← writtenSign style left op
    if sign.isEmpty then
      match left, right with
      | .slice _ leftBase leftOffset leftStart leftSize,
        .slice _ rightBase rightOffset rightStart rightSize =>
        if leftSize ≠ rightSize then .error .violated
        let l ← code style leftBase
        let r ← code style rightBase
        let lo ← offsetOf leftOffset (code style leftOffset)
        let ro ← offsetOf rightOffset (code style rightOffset)
        return slicesText l r sign leftStart rightStart lo ro leftSize
      | left, right =>
        let l ← code style left
        return assignmentText l sign (← code style right)
    else
      match right with
      | .call _ _ (.arguments _ (_ :: operand :: _) _) _ =>
        let l ← code style left
        return assignmentText l sign (← code style operand)
      | .call _ _ (.arguments _ _ _) _ => .error .outOfRange
      | _ => .error .absent
  | .statements _ .plain body => codes style "\n" body
  | .statements _ .indented body => do
    return Text.indent style.indentation (← codes style "\n" body)
  | .statements _ (.block wasSingle) body => do
    let b := Text.trimEnd (Text.indent style.indentation (← codes style "\n" body))
    return if wasSingle && body.length == 1 then b else braces b
  | .variableStatement _ .omitted _ => .error .misused
  | .variableStatement _ decl value => do
    let d ← code style decl
    if value.isOmitted then return d ++ ";"
    return d ++ " = " ++ (← code style value) ++ ";"
  | .variablesStatement _ declarations value => do
    let ds ← places style declarations
    return "(" ++ String.intercalate ", " ds ++ ") = " ++ (← code style value) ++ ";"
  | .elementary _ type => .ok type.name
  | .userType _ .address _ => .ok "address"
  | .userType _ .addressPayable _ => .ok "address payable"
  | .userType _ _ path => codes style "." path
  | .mapping _ key label value => do
    let k ← code style key
    let v ← code style value
    let l := if style.solidity then "" else
      match label with
      | .identifier _ label => "!" ++ label
      | .plain (.text t) => "/*!" ++ t ++ "*/"
      | _ => ""
    return "mapping(" ++ k ++ l ++ " => " ++ v ++ ")"
  | .arrayType _ value .omitted => do return (← code style value) ++ "[]"
  | .arrayType _ value size => do
    let v ← code style value
    return v ++ "[" ++ (← code style size) ++ "]"
  | .tupleType _ types => do return "(" ++ (← codes style ", " types) ++ ")"
  | .functionType _ parameters marks results => do
    let ps ← match parameters with
      | some ps => codes style ", " ps
      | none => pure "None"
    let ms ← codes style " " marks
    let rs ← match results with
      | some [] | none => pure ""
      | some (r :: rs) => do pure ("returns (" ++ (← codes style ", " (r :: rs)) ++ ")")
    return "function(" ++ ps ++ ") " ++ ms ++ " " ++ rs
  | .annotated _ type written who => do
    let t ← code style type
    if !style.solidity && written then return t ++ "@" ++ (← code style who)
    return t
  | .declaration _ .variable keywords type label storage => do
    let t ← code style type
    let n ← code style label
    let s := match storage with
      | some s => if s.isEmpty then "" else " " ++ s
      | none => ""
    return Text.trim (String.intercalate " " (keywordsText style keywords) ++ " " ++ t ++ s ++ " " ++ n)
  | .declaration _ .parameter keywords type label storage => do
    let t ← code style type
    let n ← code style label
    return String.intercalate " "
      ((if !style.solidity && keywords.contains "final" then ["final"] else [])
        ++ (if type.isOmitted then [] else [t]) ++ storage.toList
        ++ (if label.isOmitted then [] else [n]))
  | .stateVariable _ type keywords label value replaced => do
    let ks := keywordsText style keywords
    let t ← code style type
    let n ← code style label
    let o ← if replaced.isOmitted then pure "" else do pure (" " ++ (← code style replaced))
    let others := ks.filter (· != "final")
    let head := Text.trim ((if ks.contains "final" then "final " else "") ++ t ++ " "
      ++ (if others.isEmpty then "" else String.intercalate " " others ++ " ") ++ o ++ n)
    if value.isOmitted then return head ++ ";"
    return head ++ " = " ++ (← code style value) ++ ";"
  | .invocation _ path args => do
    return String.intercalate "." path ++ "(" ++ (← code style args) ++ ")"
  | .override _ paths => .ok (String.intercalate ", " (paths.map (String.intercalate ".")))
  | .function _ label parameters marks results body kind => do
    let n ← if kind == .function then do pure (" " ++ (← code style label)) else pure ""
    let ps ← match parameters with
      | some ps => codes style ", " ps
      | none => pure "None"
    let ms ← codes style " " marks
    let rs ← codes style ", " results
    let b ← if body.isOmitted then pure ";" else wordOr body (code style body)
    return kind.word ++ n ++ "(" ++ ps ++ ")" ++ (if ms.isEmpty then "" else " " ++ ms)
      ++ (if rs.isEmpty then "" else " returns (" ++ rs ++ ")") ++ " " ++ b
  | .modifier _ label parameters virtual overrides body => do
    let ps ← codes style ", " parameters
    let b ← if body.isOmitted then pure ";" else code style body
    let n ← code style label
    let os ← codes style ", " overrides
    return "modifier " ++ n ++ "(" ++ ps ++ ")" ++ (if virtual then " virtual" else "") ++ " " ++ os
      ++ " " ++ b
  | .enumValue _ label => code style label
  | .enum _ label values => do
    let vs ← codes style ", " values
    return "enum " ++ (← code style label) ++ " " ++ braces (Text.indent style.indentation vs)
  | .valueType _ label type => do
    let n ← code style label
    return "type " ++ n ++ " is " ++ (← code style type) ++ ";"
  | .eventParameter _ type indexed label => do
    let n ← if label.isOmitted then pure "" else do pure (" " ++ (← code style label))
    return (← code style type) ++ (if indexed.isSome then " indexed" else "") ++ n
  | .event _ label parameters anonymous => do
    let n ← code style label
    let ps ← codes style ", " parameters
    return "event " ++ n ++ "(" ++ ps ++ ")" ++ (if anonymous.isSome then " anonymous" else "") ++ ";"
  | .errorParameter _ type label => do
    let n ← if label.isOmitted then pure "" else do pure (" " ++ (← code style label))
    return (← code style type) ++ n
  | .error _ label parameters => do
    let ps ← codes style ", " parameters
    return "error " ++ (← code style label) ++ "(" ++ ps ++ ");"
  | .using _ path type => do
    let t ← if type.isOmitted then pure "*" else code style type
    return "using " ++ String.intercalate "." path ++ " for " ++ t ++ ";"
  | .struct _ label members => do
    let ms ← codes style ";\n" members
    return "struct " ++ (← code style label) ++ " "
      ++ braces (Text.indent style.indentation (ms ++ ";"))
  | .contract _ label units head tail => do
    let h ← codes style "\n" head
    let us ← codes style "\n" units
    let t ← codes style "\n" tail
    let n ← code style label
    return "contract " ++ n ++ " " ++ braces (String.intercalate "\n\n"
      ([h,us,t].map (Text.indent style.indentation)))
  | .pragma _ label version =>
    .ok (if style.solidity then "pragma solidity " ++ style.version ++ ";"
      else "pragma " ++ label ++ " " ++ version ++ ";")
  | .importFile _ path unitName aliases => do
    let quoted := "\"" ++ path ++ "\""
    if !aliases.isOmitted then
      return "import " ++ (← wordOr aliases (code { style with solidity := false } aliases)) ++ " from " ++ quoted ++ ";"
    if !unitName.isOmitted then
      return "import " ++ quoted ++ " as " ++ (← wordOr unitName (code { style with solidity := false } unitName)) ++ ";"
    return "import " ++ quoted ++ ";"
  | .inheritance _ path args => do
    return String.intercalate "." path ++ "(" ++ (← code style args) ++ ")"
  | .interface _ label bases units => do
    let bs ← codes style ", " bases
    let us ← codes style "\n" units
    return "interface " ++ (← wordOr label (code { style with solidity := false } label)) ++ (if bases.isEmpty then "" else " is " ++ bs) ++ " "
      ++ braces (Text.indent style.indentation us)
  | .library _ label units => do
    let us ← codes style "\n" units
    return "library " ++ (← wordOr label (code { style with solidity := false } label)) ++ " " ++ braces (Text.indent style.indentation us)
  | .source _ units head _ => do
    let h ← codes style "\n" head
    let us ← codes style "\n\n" units
    return h ++ "\n\n" ++ us

/-- The texts of several nodes with `separator` between them. Empty places are left out, and words
stand for themselves. -/
def codes (style : Style) (separator : String) : List Node → Outcome String
  | [] => .ok ""
  | .omitted :: rest => codes style separator rest
  | .plain (.text t) :: rest => do
    let more ← codes style separator rest
    return if rest.all isOmitted then t else t ++ separator ++ more
  | n :: rest => do
    let t ← code style n
    let more ← codes style separator rest
    return if rest.all isOmitted then t else t ++ separator ++ more

def operands (style : Style) : List Node → Outcome (List String)
  | [] => .ok []
  | n :: rest => do
    let t ← code style n
    return t :: (← operands style rest)

def places (style : Style) : List Node → Outcome (List String)
  | [] => .ok []
  | .omitted :: rest => do return "" :: (← places style rest)
  | n :: rest => do
    let t ← code style n
    return t :: (← places style rest)

end

end Node
end Confidential
