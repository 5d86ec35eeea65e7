import Confidential.Fault
import Confidential.Text.Lines

/-!
Files and directories by their paths.
-/

namespace Confidential

namespace Path

variable (path : String)

def parts : List String :=
  (path.splitOn "/").filter fun p => !p.isEmpty && p != "."

def shown : String :=
  let body := String.intercalate "/" (parts path)
  if Text.startsWith "/" path then "/" ++ body
  else if body.isEmpty then "." else body

def fileName : String :=
  ((parts path).getLast?).getD ""

def absolute (here path : String) : String :=
  if Text.startsWith "/" path then shown path
  else match parts path with
    | [] => here
    | ps => String.intercalate "/" (here :: ps)

def resolve : String :=
  let up := (parts path).foldl (fun done p => if p == ".." then done.dropLast else done ++ [p]) []
  (if Text.startsWith "/" path then "/" else "") ++ String.intercalate "/" up

def join (directory file : String) : String :=
  let d := resolve directory
  if d.isEmpty then file else if d == "/" then d ++ file else d ++ "/" ++ file

def within (directory : Option String) (file : String) : String :=
  match directory with
  | none => file
  | some d =>
    if Text.startsWith "/" file then file
    else if d.isEmpty || Text.endsWith "/" d then d ++ file
    else d ++ "/" ++ file

def withoutExtension : String :=
  match path.toList.reverse.findIdx? (· = '.') with
  | some k => Text.dropLast (k + 1) path
  | none => path

def ancestors : List String :=
  let ps := parts (resolve path)
  (List.range ps.length).reverse.map fun k => String.intercalate "/" (ps.take (k + 1))

end Path

structure Disk where
  entries : List (String × Option String) := []
  here : String := ""

namespace Disk

def lookup (d : Disk) (path : String) : Option (Option String) :=
  let p := Path.resolve path
  match d.entries.find? fun e => Path.resolve e.1 == p with
  | some e => some e.2
  | none =>
    let below := if p.isEmpty then "" else p ++ "/"
    if p.isEmpty || d.entries.any fun e => Text.startsWith below (Path.resolve e.1) then some none else none

def read (d : Disk) (path : String) : Outcome String :=
  match d.lookup path with
  | some (some text) => .ok (Text.readBack text)
  | some none => .error .isDirectory
  | none => .error .missingFile

def isBlocked (d : Disk) (path : String) : Bool :=
  let parts := Path.parts path
  (List.range parts.length).any fun k =>
    match d.lookup (String.intercalate "/" (parts.take (k + 1))) with
    | some (some _) => true
    | _ => false

def directories (d : Disk) : List String :=
  (d.entries.flatMap fun (path,text?) =>
    if text?.isNone then Path.ancestors path else (Path.ancestors path).drop 1).eraseDups |> Text.sorted

def listing (d : Disk) (directory : String) : Outcome (List String) :=
  match d.lookup directory with
  | none => .error .missingFile
  | some (some _) => .error .notDirectory
  | some none =>
    let depth := (Path.parts (Path.resolve directory)).length
    let inside := d.entries.filterMap fun (path,_) =>
      let ps := Path.parts (Path.resolve path)
      if ps.take depth = Path.parts (Path.resolve directory) then ps[depth]? else none
    .ok (inside.eraseDups |> Text.sorted)

def isDirectory (d : Disk) (path : String) : Bool :=
  d.lookup path == some none

def makeDirectory (d : Disk) (path : String) : Disk :=
  if d.isDirectory path then d else { d with entries := d.entries ++ [(Path.resolve path,none)] }

end Disk

end Confidential
