import Confidential.Text.Search

/-!
The words of a command line: options with their values, and the words that are no options.
-/

namespace Confidential.CommandLine

inductive Takes where
  | nothing
  | text
  | number
deriving DecidableEq, Inhabited

structure Flag where
  spellings : List String
  takes : Takes

inductive Word where
  | plain (text : String)
  | flag (f : Flag) (value : Option String)
  | separator
  | unknown
  | ambiguous

def byName? (flags : List Flag) (name : String) : Option Flag :=
  flags.find? fun f => f.spellings.contains name

def splitEquals? (word : String) : Option (String × String) :=
  let cs := word.toList
  if cs.contains '=' then
    some (String.ofList (cs.takeWhile (· != '=')),String.ofList ((cs.dropWhile (· != '=')).drop 1))
  else none

def candidates (flags : List Flag) (word : String) : List (Flag × Option String) :=
  let (name,value) := match splitEquals? word with
    | some (name,value) => (name,some value)
    | none => (word,none)
  let all := flags.flatMap fun f => f.spellings.map fun s => (f,s)
  if Text.startsWith "--" word then
    (all.filter fun (_,s) => Text.startsWith name s).map fun (f,_) => (f,value)
  else
    let letter := Text.slice 0 2 word
    let joined := Text.dropFirst 2 word
    all.filterMap fun (f,s) =>
      if s == letter then some (f,some joined)
      else if Text.startsWith name s then some (f,value)
      else none

def isNegativeNumber (word : String) : Bool :=
  match word.toList with
  | '-' :: rest =>
    let digits := rest.takeWhile Char.isDigit
    match rest.dropWhile Char.isDigit with
    | [] => !digits.isEmpty
    | '.' :: fraction => !fraction.isEmpty && fraction.all Char.isDigit
    | _ => false
  | _ => false

def classify (flags : List Flag) (word : String) : Word :=
  if !Text.startsWith "-" word || word == "-" then .plain word
  else match byName? flags word with
    | some f => .flag f none
    | none =>
      match (splitEquals? word).bind fun (name,value) => (byName? flags name).map fun f => (f,value) with
      | some (f,value) => .flag f (some value)
      | none =>
        match candidates flags word with
        | [(f,value)] => .flag f value
        | _ :: _ => .ambiguous
        | [] =>
          if isNegativeNumber word || Text.contains " " word then .plain word else .unknown

/-- The words as the options see them; behind the separator all words are plain. -/
def words (flags : List Flag) : List String → List Word
  | [] => []
  | w :: ws => if w == "--" then .separator :: ws.map .plain else classify flags w :: words flags ws

structure Found where
  options : List (String × String) := []
  plain : List String := []

def Flag.name (f : Flag) : String :=
  (f.spellings.getLast?).getD ""

def Flag.accepts (f : Flag) (value : String) : Bool :=
  match f.takes with
  | .number => (Text.integer? value).isSome
  | _ => true

/-- Reads all words; no result if they do not fit the options. The separator stands next to a plain
word. -/
def collect : List Word → Found → Option Found
  | [], so => some so
  | .plain t :: .separator :: rest, so | .separator :: .plain t :: rest, so | .plain t :: rest, so =>
    collect rest { so with plain := so.plain ++ [t] }
  | .separator :: _, _ => none
  | .flag f value :: rest, so =>
    match f.takes, value, rest with
    | .nothing, none, rest => collect rest { so with options := so.options ++ [(f.name,"")] }
    | .nothing, some _, _ => none
    | _, some v, rest =>
      if f.accepts v then collect rest { so with options := so.options ++ [(f.name,v)] } else none
    | _, none, .plain v :: rest =>
      if f.accepts v then collect rest { so with options := so.options ++ [(f.name,v)] } else none
    | _, none, _ => none
  | .unknown :: _, _ | .ambiguous :: _, _ => none

def Found.value? (so : Found) (name : String) : Option String :=
  so.options.reverse.lookup name

def Found.has (so : Found) (name : String) : Bool :=
  (so.value? name).isSome

def splitCommand : List Word → List String → List (String × String) → Option (Found × String × List String)
  | .plain c :: _, _ :: ws, options => some ({ options },c,ws)
  | .flag f (some v) :: rest, _ :: ws, options =>
    if f.takes = .nothing then none else splitCommand rest ws (options ++ [(f.name,v)])
  | .flag f none :: .plain v :: rest, _ :: _ :: ws, options =>
    if f.takes = .nothing then none else splitCommand rest ws (options ++ [(f.name,v)])
  | _, _, _ => none

def read (flags : List Flag) (commands : List (String × List Flag)) (args : List String) :
    Option (Found × String × Found) := do
  let (before,command,rest) ← splitCommand (words flags args) args []
  let own ← commands.lookup command
  return (before,command,← collect (words own rest) {})

end Confidential.CommandLine
