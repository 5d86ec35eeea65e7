import Confidential.Token
import Confidential.Text.Search

/-!
Cutting a source text into tokens.
-/

namespace Confidential.Token

variable (cs : List Char)

def keywords : List String :=
  ["SOL","pragma","cloak","solidity","import","as","from","contract","interface","library",
   "is","final","public","private","internal","constant","immutable","constructor","payable",
   "function","fallback","receive","modifier","virtual","external","struct","returns","pure",
   "view","override","enum","type","event","anonymous","indexed","error","using","for",
   "mapping","if","else","while","do","continue","break","try","catch","return","emit",
   "revert","assembly","address","bool","var","string","bytes","byte","new","leave","let",
   "case","switch","default","memory","storage","calldata","me","all","tee"]

def reservedWords : List String :=
  ["abstract","after","in","inline","match","null","of","relocatable","static","typeof"]

def signs : List String :=
  ["<<=",">>=","++","--","**","<<",">>","<=",">=","==","!=","&&","||","|=","^=","&=",
   "+=","-=","*=","/=","%=","=>",":=","->",";","^","~",">","<","=","*","\x7b","\x7d",",",
   "(",")",".","[","]",":","+","-","!","/","%","&","|","?","@"]

def isNameStart (c : Char) : Bool :=
  c.isAlpha || c == '$' || c == '_'

def isNamePart (c : Char) : Bool :=
  c.isAlphanum || c == '$' || c == '_'

def isHexDigit (c : Char) : Bool :=
  c.isDigit || ('a' ≤ c && c ≤ 'f') || ('A' ≤ c && c ≤ 'F')

def isSpace (c : Char) : Bool :=
  c == ' ' || c == '\t' || c == '\r' || c == '\n' || c == '\x0c'

def isIntegerType (stem : String) (word : String) : Bool :=
  word == stem || (List.range 32).any fun k => word == stem ++ toString (8 * (k + 1))

def isBytesType (word : String) : Bool :=
  (List.range 32).any fun k => word == "bytes" ++ toString (k + 1)

def isFixedPointType (stem : String) (word : String) : Bool :=
  if Text.startsWith stem word then
    match word.toList.drop stem.length with
    | [] => true
    | digits =>
      let whole := digits.takeWhile Char.isDigit
      match digits.dropWhile Char.isDigit with
      | 'x' :: fraction => !whole.isEmpty && !fraction.isEmpty && fraction.all Char.isDigit
      | _ => false
  else false

def wordKind (word : String) : Kind :=
  if keywords.contains word then .fixed
  else if word == "true" || word == "false" then .truth
  else if isIntegerType "uint" word || isIntegerType "int" word || isBytesType word
      || isFixedPointType "fixed" word || isFixedPointType "ufixed" word then .sizedType
  else if reservedWords.contains word then .reserved
  else .name

/-- Length of the longest run of digits in which single underscores may divide the digits;
the run continues a digit. -/
def groupedRun (isDigit : Char → Bool) : List Char → Nat
  | [] => 0
  | '_' :: c :: rest => if isDigit c then groupedRun isDigit rest + 2 else 0
  | c :: rest => if isDigit c then groupedRun isDigit rest + 1 else 0

def digitsRun (isDigit : Char → Bool) : List Char → Nat
  | [] => 0
  | c :: rest => if isDigit c then groupedRun isDigit rest + 1 else 0

def decimalRun : Nat :=
  let n := digitsRun Char.isDigit cs
  match cs.drop n with
  | c :: rest =>
    let m := digitsRun Char.isDigit rest
    if (c == 'e' || c == 'E') && 0 < m then n + 1 + m else n
  | [] => n

def hexRun : List Char → Nat
  | '0' :: c :: rest =>
    let n := digitsRun isHexDigit rest
    if (c == 'x' || c == 'X') && 0 < n then n + 2 else 0
  | _ => 0

def versionRun : Nat :=
  let major := cs.takeWhile Char.isDigit
  match cs.dropWhile Char.isDigit with
  | '.' :: rest =>
    let minor := rest.takeWhile Char.isDigit
    match rest.dropWhile Char.isDigit with
    | '.' :: rest =>
      let patch := rest.takeWhile Char.isDigit
      if minor.isEmpty || patch.isEmpty then 0
      else major.length + minor.length + patch.length + 2
    | _ => 0
  | _ => 0

def numberLexeme : Kind × Nat :=
  let v := versionRun cs
  let d := decimalRun cs
  let h := hexRun cs
  if d ≤ v && h ≤ v then (.version,v) else if h ≤ d then (.decimal,d) else (.hexadecimal,h)

/-- Length of a quoted text behind its opening quote `q`, the closing quote included. -/
def quotedRun (q : Char) : List Char → Option Nat
  | [] => none
  | '\\' :: _ :: rest => (quotedRun q rest).map (· + 2)
  | c :: rest =>
    if c == q then some 1
    else if c == '\r' || c == '\n' || c == '\\' then none
    else (quotedRun q rest).map (· + 1)

/-- Length of pairs of hexadecimal digits up to the closing quote `q`; single underscores may
divide the pairs. -/
def hexPairsRun (q : Char) : List Char → Option Nat
  | '_' :: c :: d :: rest =>
    if isHexDigit c && isHexDigit d then (hexPairsRun q rest).map (· + 3) else none
  | c :: d :: rest =>
    if c == q then some 1
    else if isHexDigit c && isHexDigit d then (hexPairsRun q rest).map (· + 2) else none
  | [c] => if c == q then some 1 else none
  | [] => none

def hexTextRun : List Char → Option Nat
  | 'h' :: 'e' :: 'x' :: q :: rest =>
    if q == '"' || q == '\'' then
      match rest with
      | '_' :: _ => none
      | _ => (hexPairsRun q rest).map (· + 4)
    else none
  | _ => none

def wordLexeme : Kind × Nat :=
  match hexTextRun cs with
  | some n => (.hexText,n)
  | none =>
    if "address payable".toList.isPrefixOf cs then (.fixed,15)
    else
      let word := cs.takeWhile isNamePart
      (wordKind (String.ofList word),word.length)

def quotedLexeme (q : Char) (rest : List Char) : Kind × Nat :=
  match quotedRun q rest with
  | none => (.invalid,1)
  | some n => if (q :: rest).take (n + 1) == "\"evmasm\"".toList then (.fixed,n + 1) else (.text,n + 1)

def signLexeme : Kind × Nat :=
  match signs.find? fun s => s.toList.isPrefixOf cs with
  | some s => (.fixed,s.length)
  | none => (.invalid,1)

def slashLexeme : Kind × Nat :=
  match cs with
  | '/' :: '/' :: rest => (.hidden,(rest.takeWhile fun c => c != '\r' && c != '\n').length + 2)
  | '/' :: '*' :: rest =>
    match Text.find? ['*','/'] rest with
    | some n => (.hidden,n + 4)
    | none => signLexeme cs
  | _ => signLexeme cs

def lexeme : List Char → Kind × Nat
  | [] => (.finish,0)
  | c :: rest =>
    if isNameStart c then wordLexeme (c :: rest)
    else if c.isDigit then numberLexeme (c :: rest)
    else if isSpace c then (.hidden,(rest.takeWhile isSpace).length + 1)
    else if c == '"' || c == '\'' then quotedLexeme c rest
    else slashLexeme (c :: rest)

/-- The tokens of a text that starts at the given place. -/
def scan : Pos → Nat → List Char → List Token
  | p, _, [] => [⟨.finish,"",p⟩]
  | p, k + 1, c :: rest => scan (p.after c) k rest
  | p, 0, c :: rest =>
    let (kind,n) := lexeme (c :: rest)
    ⟨kind,String.ofList ((c :: rest).take (n - 1 + 1)),p⟩ :: scan (p.after c) (n - 1) rest

def ofSource (source : String) : List Token :=
  scan .first 0 source.toList

theorem toList_source_cons (t : Token) (ts : List Token) :
    (source (t :: ts)).toList = t.text.toList ++ (source ts).toList := by
  simp [source,String.join_cons]

theorem toList_source_scan (p : Pos) (k : Nat) :
    (source (scan p k cs)).toList = cs.drop k := by
  induction cs generalizing p k with
  | nil => simp [scan,source]
  | cons c rest ih =>
    cases k with
    | zero => simp [scan,toList_source_cons,ih]
    | succ k => simp [scan,ih]

theorem source_ofSource (s : String) : source (ofSource s) = s := by
  apply String.toList_injective
  simp [ofSource,toList_source_scan]

end Confidential.Token
