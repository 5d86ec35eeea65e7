import Confidential.Disk

/-!
Commands that need nothing but their words: printing, and success or failure, alone or in a script
for the shell.
-/

namespace Confidential.Shell

structure Effect where
  output : String := ""
  errors : String := ""
  status : Nat := 0

/-- A command in the form in which it is typed: words with a blank inside stand in quotes. -/
def typed (words : List String) : String :=
  String.intercalate " " (words.map fun w => if w.contains ' ' then "\"" ++ w ++ "\"" else w)

/-! ### Printing -/

def escapeOf? : Char → Option Char
  | 'n' => some '\n'
  | 't' => some '\t'
  | 'r' => some '\r'
  | 'a' => some '\x07'
  | 'b' => some '\x08'
  | 'f' => some '\x0c'
  | 'v' => some '\x0b'
  | '\\' => some '\\'
  | _ => none

def unescaped : List Char → List Char
  | '\\' :: c :: rest =>
    match escapeOf? c with
    | some d => d :: unescaped rest
    | none => '\\' :: c :: unescaped rest
  | c :: rest => c :: unescaped rest
  | [] => []

def formatted : List Char → List String → List Char × List String
  | '%' :: '%' :: rest, words =>
    let (text,left) := formatted rest words
    ('%' :: text,left)
  | '%' :: kind :: rest, words =>
    let word := (words.head?).getD ""
    let text := match kind with
      | 'd' | 'i' | 'u' => toString ((Text.integer? word).getD 0)
      | 'c' => String.ofList (word.toList.take 1)
      | 'b' => String.ofList (unescaped word.toList)
      | _ => word
    let (more,left) := formatted rest (words.drop 1)
    (text.toList ++ more,left)
  | '\\' :: '"' :: rest, words =>
    let (text,left) := formatted rest words
    ('"' :: text,left)
  | '\\' :: c :: rest, words =>
    let (text,left) := formatted rest words
    (((escapeOf? c).map ([·])).getD ['\\',c] ++ text,left)
  | c :: rest, words =>
    let (text,left) := formatted rest words
    (c :: text,left)
  | [], words => ([],words)

def formatAll (format : List Char) : Nat → List String → List Char
  | 0, _ => []
  | fuel + 1, words =>
    let (text,left) := formatted format words
    if left.isEmpty || left.length == words.length then text else text ++ formatAll format fuel left

/-- The words with a blank in between and a line end, unless the first word asks for none. -/
def echoed (escapes : Bool) (words : List String) : String :=
  let text (ws : List String) := String.intercalate " " ws
  let shown (s : String) := if escapes then String.ofList (unescaped s.toList) else s
  match words with
  | "-n" :: rest => shown (text rest)
  | ws => shown (text ws) ++ "\n"

def simple (isScript : Bool) (directory name : String) (words : List String) : Effect :=
  match name with
  | "pwd" => { output := Path.resolve directory ++ "\n" }
  | "echo" =>
    match isScript, words with
    | false, "-e" :: rest => { output := echoed true rest }
    | _, ws => { output := echoed isScript ws }
  | "printf" =>
    match words with
    | [] => { errors := "printf: missing operand\n", status := 1 }
    | format :: rest => { output := String.ofList (formatAll format.toList (rest.length + 1) rest) }
  | "true" | ":" => {}
  | "false" => { status := 1 }
  | _ => { errors := "sh: 1: " ++ name ++ ": not found\n", status := 127 }

/-! ### Scripts -/

inductive Token where
  | word (text : String)
  /-- From here on a stream goes elsewhere; the next word tells where. -/
  | redirect (stream : Nat)
  /-- The next command runs always, only after success, or only after failure. -/
  | next
  | ifDone
  | ifFailed

/-- Where the reader of a script is: outside of quotes, inside of some, or in a comment. -/
inductive Mode where
  | plain
  | single
  | double
  | comment

def closeWord (word : Option (List Char)) (tokens : List Token) : List Token :=
  match word with
  | some cs => .word (String.ofList cs) :: tokens
  | none => tokens

def extendWord (word : Option (List Char)) (c : Char) : Option (List Char) :=
  some (word.getD [] ++ [c])

def tokens : Mode → Option (List Char) → List Char → List Token
  | _, word, [] => closeWord word []
  | .single, word, c :: rest =>
    if c = '\'' then tokens .plain word rest else tokens .single (extendWord word c) rest
  | .double, word, '\\' :: c :: rest =>
    if ['"','\\','$'].contains c then tokens .double (extendWord word c) rest
    else tokens .double (extendWord (extendWord word '\\') c) rest
  | .double, word, c :: rest =>
    if c = '"' then tokens .plain word rest else tokens .double (extendWord word c) rest
  | .comment, word, c :: rest =>
    if c = '\n' then .next :: tokens .plain none rest else tokens .comment word rest
  | .plain, word, '&' :: '&' :: rest => closeWord word (.ifDone :: tokens .plain none rest)
  | .plain, word, '|' :: '|' :: rest => closeWord word (.ifFailed :: tokens .plain none rest)
  | .plain, none, '2' :: '>' :: rest => .redirect 2 :: tokens .plain none rest
  | .plain, none, '1' :: '>' :: rest => .redirect 1 :: tokens .plain none rest
  | .plain, word, '\\' :: c :: rest => tokens .plain (extendWord word c) rest
  | .plain, word, c :: rest =>
    if c = '\'' then tokens .single (some (word.getD [])) rest
    else if c = '"' then tokens .double (some (word.getD [])) rest
    else if c = ';' || c = '\n' then closeWord word (.next :: tokens .plain none rest)
    else if c = '#' && word.isNone then tokens .comment none rest
    else if c = '>' then closeWord word (.redirect 1 :: tokens .plain none rest)
    else if Text.isBlank c then closeWord word (tokens .plain none rest)
    else tokens .plain (extendWord word c) rest

structure Command where
  condition : Token := .next
  words : List String := []
  redirects : List (Nat × String) := []

def commands : Command → List Token → List Command
  | c, [] => [c]
  | c, .redirect n :: .word target :: rest =>
    commands { c with redirects := c.redirects ++ [(n,target)] } rest
  | c, .redirect _ :: rest => commands c rest
  | c, .word w :: rest => commands { c with words := c.words ++ [w] } rest
  | c, t :: rest => c :: commands { condition := t } rest

def redirected (e : Effect) : List (Nat × String) → Effect
  | [] => e
  | (1,"&2") :: rest => redirected { e with output := "", errors := e.errors ++ e.output } rest
  | (2,"&1") :: rest => redirected { e with errors := "", output := e.output ++ e.errors } rest
  | (2,_) :: rest => redirected { e with errors := "" } rest
  | (_,_) :: rest => redirected { e with output := "" } rest

def isUsualDirectory (path : String) : Bool :=
  ["","/","/bin","/dev","/etc","/home","/root","/tmp","/usr","/usr/bin","/var"].contains (Path.resolve path)

def Effect.followedBy (a b : Effect) : Effect :=
  { output := a.output ++ b.output, errors := a.errors ++ b.errors, status := b.status }

def runAll (directory : String) (so : Effect) : List Command → Effect
  | [] => so
  | c :: rest =>
    let runs := match c.condition with
      | .ifDone => so.status == 0
      | .ifFailed => so.status != 0
      | _ => true
    match runs, c.words with
    | false, _ | _, [] => runAll directory so rest
    | true, "cd" :: target :: _ =>
      if isUsualDirectory (Path.within (some directory) target) then
        runAll (Path.within (some directory) target) { so with status := 0 } rest
      else runAll directory (so.followedBy
        { errors := "sh: 1: cd: can't cd to " ++ target ++ "\n", status := 2 }) rest
    | true, "exit" :: code => { so with status := ((code.head?.bind (·.toNat?)).getD so.status) % 256 }
    | true, name :: words =>
      runAll directory (so.followedBy (redirected (simple true directory name words) c.redirects)) rest

def script (directory text : String) : Effect :=
  runAll directory {} (commands {} (tokens .plain none text.toList))

def run (directory : String) : List String → Effect
  | "sh" :: "-c" :: text :: _ => script directory text
  | name :: words => simple false directory name words
  | [] => { status := 127 }

/-- Output and errors of a command that succeeds, without the blanks at their ends. The command runs in
a directory. -/
def capture (directory : String) (words : List String) : Outcome (String × String) :=
  let e := run directory words
  if !isUsualDirectory directory then .error .missingFile
  else if e.status = 0 then .ok (Text.trimEnd e.output,Text.trimEnd e.errors)
  else .error .failedCommand

end Confidential.Shell
