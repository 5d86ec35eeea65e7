import Confidential.Description.Item
import Confidential.Elementary

/-!
Nodes by their fields, and the description of a whole tree as plain data.
-/

namespace Confidential

def Elementary.numberFields (name : String) (signed : Bool) (bits : Int) : List (String × Item) :=
  [("name",.text name),("signed",.bool signed),("size_in_bits",.int bits),("_size_in_bits",.int bits)]

def Elementary.fields : Elementary → List (String × Item)
  | .number name signed bits => numberFields name signed bits
  | .int name bits => numberFields name true bits
  | .uint name bits => numberFields name false bits
  | .numberLiteral v => numberFields (toString v) (v < 0) (Literal.width v)
  | .bytes name length =>
    [("name",.text name),("len",match length with | some n => .int n | none => .null)]
  | t => [("name",.text t.name)]

namespace Description

def fields : Node → List (String × Item)
  | .omitted | .plain _ | .general _ _ | .owner _ _ | .breakLoop _ | .continueLoop _ => []
  | .identifier _ name => [("name",.text name)]
  | .comment _ text => [("text",.text text)]
  | .blankLine _ => [("text",.text "")]
  | .builtin _ op => [("op",.text op.name)]
  | .namedArgument _ key value => [("key",.text key),("value",.node value)]
  | .arguments _ values named => [("args",.nodes values),("named_arguments",.bool named)]
  | .callOptions _ callee values => [("expr",.node callee),("args",.nodes values)]
  | .call _ callee args options =>
    [("func",.node callee),("args",.node args),("functionCallOptions",.bool options)]
  | .metaType _ type => [("typeName",.node type)]
  | .create _ type => [("target_type",.node type)]
  | .cast _ type value implicit =>
    [("elem_type",.node type),("expr",.node value),("is_implicit",.bool implicit)]
  | .truth _ value => [("value",.bool value)]
  | .number _ value hexadecimal source unit =>
    [("value",.int value),("was_hex",.bool hexadecimal),("source_text",.optionalText source),
     ("unit",.optionalText unit)]
  | .text _ value => [("value",.text value)]
  | .arrayLiteral _ _ values => [("values",.nodes values)]
  | .tuple _ elements => [("elements",.nodes elements)]
  | .inlineArray _ elements => [("exprs",.nodes elements)]
  | .name _ idf => [("idf",.node idf)]
  | .member _ base member => [("expr",.node base),("member",.node member)]
  | .index _ base key => [("arr",.node base),("key",.node key)]
  | .range _ base first last => [("arr",.node base),("start",.node first),("end",.node last)]
  | .slice _ base offset start size =>
    [("arr",.node base),("base",.node offset),("start_offset",.int start),("size",.int size)]
  | .reveal _ value owner => [("expr",.node value),("privacy",.node owner)]
  | .branch _ condition yes no =>
    [("condition",.node condition),("then_branch",.node yes),("else_branch",.node no)]
  | .whileLoop _ condition body => [("condition",.node condition),("body",.node body)]
  | .doWhileLoop _ body condition => [("body",.node body),("condition",.node condition)]
  | .forLoop _ start condition update body =>
    [("init",.node start),("condition",.node condition),("update",.node update),("body",.node body)]
  | .catchClause _ name parameters body =>
    [("idf",.node name),("args",.nodes parameters),("body",.node body)]
  | .tryCall _ call results body clauses =>
    [("expr",.node call),("returnParameters",.nodes results),("body",.node body),
     ("catchClauses",.nodes clauses)]
  | .returnValue _ value => [("expr",.node value)]
  | .emit _ event args => [("expr",.node event),("args",.node args)]
  | .revert _ error args => [("expr",.node error),("args",.node args)]
  | .assembly _ text => [("text",.text text)]
  | .expressionStatement _ value => [("expr",.node value)]
  | .require _ condition comment written =>
    [("condition",.node condition),("comment",.node comment),("unmodified_code",.text written)]
  | .assign _ _ left right op => [("lhs",.node left),("rhs",.node right),("op",.text op)]
  | .statements _ (.block wasSingle) body =>
    [("statements",.nodes body),("was_single_statement",.bool wasSingle),
     ("excluded_from_simulation",.bool false)]
  | .statements _ _ body => [("statements",.nodes body),("excluded_from_simulation",.bool false)]
  | .variableStatement _ declaration value =>
    [("variable_declaration",.node declaration),("expr",.node value)]
  | .variablesStatement _ declarations value => [("vs",.nodes declarations),("expr",.node value)]
  | .elementary _ type => type.fields
  | .userType _ _ path => [("names",.nodes path)]
  | .mapping _ key label value =>
    [("key_type",.node key),("key_label",.node label),("value_type",.node value)]
  | .arrayType _ value size => [("value_type",.node value),("expr",.node size)]
  | .tupleType _ types => [("types",.nodes types)]
  | .functionType _ parameters marks results =>
    [("parameters",.optionalNodes parameters),("modifiers",.nodes marks),
     ("return_parameters",.optionalNodes results)]
  | .annotated _ type written owner =>
    [("type_name",.node type),("had_privacy_annotation",.bool written),("privacy_annotation",.node owner)]
  | .declaration _ _ keywords type name storage =>
    [("keywords",.texts keywords),("annotated_type",.node type),("idf",.node name),
     ("storage_location",.optionalText storage)]
  | .stateVariable _ type keywords name value override =>
    [("keywords",.texts keywords),("annotated_type",.node type),("idf",.node name),
     ("storage_location",.null),("expr",.node value),("overrideSpecifier",.node override)]
  | .invocation _ path args => [("path",.texts path),("args",.node args)]
  | .override _ paths => [("paths",.list (paths.map .texts))]
  | .function _ name parameters marks results body kind =>
    [("idf",.node name),("kind",.text kind.word),("parameters",.optionalNodes parameters),
     ("modifiers",.nodes marks),("return_parameters",.nodes results),("body",.node body),
     ("original_body",.null),("called_functions",.other "OrderedDict"),
     ("is_privacy_related_function",.bool false),("privacy_related_params",.null),
     ("mutate_states",.list [])]
  | .modifier _ name parameters virtual overrides body =>
    [("idf",.node name),("parameters",.nodes parameters),("virtual",.bool virtual),
     ("overrideSpecifiers",.nodes overrides),("body",.node body)]
  | .enumValue _ name => [("idf",.node name)]
  | .enum _ name values => [("idf",.node name),("values",.nodes values)]
  | .valueType _ name type => [("idf",.node name),("underlying_type",.node type)]
  | .eventParameter _ type indexed name =>
    [("annotated_type",.node type),("indexed",.optionalText indexed),("name",.node name)]
  | .event _ name parameters anonymous =>
    [("idf",.node name),("parameters",.nodes parameters),("anonymous",.optionalText anonymous)]
  | .errorParameter _ type name => [("annotated_type",.node type),("name",.node name)]
  | .error _ name parameters => [("idf",.node name),("parameters",.nodes parameters)]
  | .using _ path type => [("path",.texts path),("type_name",.node type)]
  | .struct _ name members => [("idf",.node name),("members",.nodes members)]
  | .contract _ name units head tail =>
    [("idf",.node name),("units",.nodes units),("extra_head_parts",.nodes head),
     ("extra_tail_parts",.nodes tail)]
  | .pragma _ name version => [("name",.text name),("version",.text version)]
  | .importFile _ path unitName aliases =>
    [("path",.text path),("unitAlias",.node unitName),
     ("aliases",if aliases.isOmitted then .other "dict" else .node aliases),
     ("processed_aliases",.other "dict")]
  | .inheritance _ path args => [("path",.texts path),("args",.node args)]
  | .interface _ name bases units =>
    [("name",.node name),("inheritanceSpecifiers",.nodes bases),("body_elems",.nodes units)]
  | .library _ name units => [("name",.node name),("body_elems",.nodes units)]
  | .source _ units head single =>
    [("units",.nodes units),("extra_head_parts",.nodes head),("sba",.node single),
     ("privacy_policy",.null),("generated_policy",.null)]

def isUndescribed (name : String) : Bool :=
  ["is_implicit","unit","base","start_offset","size","types","overrideSpecifier","extra_head_parts",
   "extra_tail_parts","sba","_size_in_bits","original_body","called_functions",
   "is_privacy_related_function","privacy_related_params","mutate_states","excluded_from_simulation",
   "processed_aliases","privacy_policy","generated_policy"].contains name

mutual

def ofNodeWithin : Nat → Node → Value
  | 0, _ => .null
  | fuel + 1, n =>
    match n with
    | .omitted => .null
    | .plain (.int k) => .text (toString k)
    | .plain v => v
    | n =>
      let shown := (fields n).filter fun (name,_) => !isUndescribed name
      .record (("node",.text n.label) :: ("at",.list [.int n.line,.int n.column]) ::
        shown.map fun (name,i) => (name,ofItem fuel i))

def ofItem : Nat → Item → Value
  | 0, _ => .null
  | fuel + 1, i =>
    match i with
    | .node n => ofNodeWithin fuel n
    | .list items => .list (items.map (ofItem fuel))
    | .privacy p => .text (toString p.rank)
    | .other _ => .record []

end

/-- The description of a tree: kind, place and fields of every node. -/
def ofNode (n : Node) : Value :=
  ofNodeWithin (4 * n.subtrees.length + 1) n

end Description
end Confidential
