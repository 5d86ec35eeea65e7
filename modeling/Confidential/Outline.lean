import Confidential.Fault
import Confidential.Text.Lines

/-!
Text that is put together piece by piece, with levels of indentation.
-/

namespace Confidential

/-- `margin` stands in front of what is added; each level makes it longer by `step`. -/
structure Outline where
  text : String := ""
  margin : String := ""
  step : String := "    "

namespace Outline

variable (o : Outline)

def placed (piece : String) : String :=
  Text.indent o.margin (Text.withoutMargin piece)

def add (separator : String) (o : Outline) (piece : String) : Outline :=
  { o with text := o.text ++ separator ++ if piece.isEmpty then "" else o.placed piece }

/-- Adds pieces with separators between them. Empty pieces are left out, and a single line feed
stands for nothing. -/
def addAll (separator : String) (o : Outline) (pieces : List String) : Outline :=
  let kept := (pieces.filter fun p => !p.isEmpty).map fun p => o.placed (if p == "\n" then "" else p)
  { o with text := o.text ++ String.intercalate separator kept }

def line (piece : String) : Outline :=
  o.add "\n" piece

def lines (pieces : List String) : Outline :=
  { o with text := o.text ++ "\n" }.addAll "\n" pieces

def item (piece : String) : Outline :=
  o.add ", " piece

def items (pieces : List String) : Outline :=
  o.addAll ", " pieces

def deeper : Outline :=
  { o with margin := o.margin ++ o.step }

def shallower : Outcome Outline :=
  if o.step.length ≤ o.margin.length then
    .ok { o with margin := if o.step.isEmpty then "" else Text.dropLast o.step.length o.margin }
  else .error .violated

def render : String :=
  Text.trim o.text ++ "\n"

end Outline
end Confidential
