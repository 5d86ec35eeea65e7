import Confidential.Fault
import Confidential.Text.Printable

/-!
Versions of the Solidity compiler, and which of them can be used.
-/

namespace Confidential

structure SolcVersion where
  major : Nat
  minor : Nat
  patch : Nat
  prerelease : List String := []
  build : List String := []

namespace SolcVersion

def core (v : SolcVersion) : String :=
  s!"{v.major}.{v.minor}.{v.patch}"

def isBefore (a b : SolcVersion) : Bool :=
  a.major < b.major || (a.major == b.major &&
    (a.minor < b.minor || (a.minor == b.minor && a.patch < b.patch)))

def supported : String :=
  "^0.8.0"

def isSupported (v : SolcVersion) : Bool :=
  v.major == 0 && v.minor == 8 && v.prerelease.isEmpty

def hasLeadingZero (digits : List Char) : Bool :=
  digits.head? == some '0' && digits != ['0'] && digits.all Char.isDigit

def isTagChar (c : Char) : Bool :=
  c.isAlphanum && c.toNat < 128 || c == '.' || c == '-'

def splitTags (cs : List Char) : List String :=
  (String.ofList cs).splitOn "."

def tag? (mark : Char) (cs : List Char) : Option (List Char × List Char) :=
  match cs with
  | c :: rest =>
    if c = mark then
      let tag := rest.takeWhile isTagChar
      if tag.isEmpty then none else some (tag,rest.dropWhile isTagChar)
    else some ([],cs)
  | [] => some ([],[])

def number? (cs : List Char) : Option (List Char × List Char) :=
  let digits := cs.takeWhile Char.isDigit
  match digits, cs.dropWhile Char.isDigit with
  | [], _ => none
  | _, '.' :: rest => some (digits,rest)
  | _, _ => none

def pieces? (s : String) : Option (List Char × List Char × List Char × List Char × List Char) := do
  let (major,rest) ← number? s.toList
  let (minor,rest) ← number? rest
  let patch := rest.takeWhile Char.isDigit
  if patch.isEmpty then none
  let (prerelease,rest) ← tag? '-' (rest.dropWhile Char.isDigit)
  let (build,rest) ← tag? '+' rest
  if rest.isEmpty then return (major,minor,patch,prerelease,build) else none

/-- Tags must not be empty; a number in front of a release has no leading zero. -/
def checkTags (tags : List String) (zerosAllowed : Bool) : Except String Unit :=
  tags.forM fun t =>
    if t.isEmpty then
      .error ("Invalid empty identifier '' in " ++ Text.quoted (String.intercalate "." tags))
    else if hasLeadingZero t.toList && !zerosAllowed then
      .error s!"Invalid leading zero in identifier {Text.quoted t}"
    else .ok ()

def parse (s : String) : Except String SolcVersion := do
  let shown := Text.quoted s
  if s.isEmpty then .error s!"Invalid empty version string: {shown}"
  match pieces? s with
  | none => .error s!"Invalid version string: {shown}"
  | some (major,minor,patch,prerelease,build) =>
    if hasLeadingZero major then .error s!"Invalid leading zero in major: {shown}"
    if hasLeadingZero minor then .error s!"Invalid leading zero in minor: {shown}"
    if hasLeadingZero patch then .error s!"Invalid leading zero in patch: {shown}"
    let prerelease := if prerelease.isEmpty then [] else splitTags prerelease
    checkTags prerelease false
    let build := if build.isEmpty then [] else splitTags build
    checkTags build true
    let value := fun (cs : List Char) => cs.foldl (fun n c => n * 10 + (c.toNat - 48)) 0
    return { major := value major, minor := value minor, patch := value patch, prerelease, build }

end SolcVersion

structure Toolchain where
  installed : List String := ["0.8.0"]
  installable : List String := []
  active : String := "0.8.0"

namespace Toolchain

/-- What came of choosing a compiler: the compilers at hand, what was printed, and the outcome. -/
structure Choice where
  tools : Toolchain
  printed : String := ""
  outcome : Outcome Unit := .ok ()

def version (t : Toolchain) : String :=
  match SolcVersion.parse t.active with
  | .ok v => "v" ++ v.core
  | .error _ => "v" ++ t.active

def newest? (t : Toolchain) : Option String :=
  t.installed.foldl (fun best s =>
    match SolcVersion.parse s,best.map SolcVersion.parse with
    | .ok v,some (.ok b) => if v.isSupported && b.isBefore v then some s else best
    | .ok v,_ => if v.isSupported then some s else best
    | .error _,_ => best) none

def chooseNewest (t : Toolchain) : Choice :=
  match t.newest? with
  | some s => { tools := { t with active := s } }
  | none =>
    { tools := t, outcome := .error (.exit "100")
      printed := "ERROR: No compatible solc version is installed.\n" ++
        "Please use \"zkay update-solc\" to install the latest compatible solc version.\n" }

/-- Chooses a compiler by its version. One that is not installed is fetched. -/
def choose (t : Toolchain) (version : String) : Choice :=
  let s := if Text.startsWith "v" version then Text.dropFirst 1 version else version
  if s == "latest" then t.chooseNewest
  else
    let invalid := fun (reason : String) =>
      ({ tools := t, outcome := .error (.badValue (some s!"Invalid version string {s}\n{reason}")) } : Choice)
    match SolcVersion.parse s with
    | .error reason => invalid reason
    | .ok v =>
      if !v.isSupported then invalid s!"Zkay only supports solc versions satisfying {SolcVersion.supported}"
      else if t.installed.contains s then { tools := { t with active := s } }
      else if t.installable.contains s then
        { tools := { t with active := s, installed := t.installed ++ [s] } }
      else
        { tools := t, outcome := .error (.exit "101")
          printed := s!"ERROR: Error while trying to install solc version {s}\n('no network',)\n" }

end Toolchain
end Confidential
