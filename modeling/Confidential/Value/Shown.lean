import Confidential.Decimal
import Confidential.Text.Printable
import Confidential.Value

/-!
Plain data as messages show it.
-/

namespace Confidential.Value

mutual

def shown : Value → String
  | .null => "None"
  | .bool b => if b then "True" else "False"
  | .int n => toString n
  | .real x => Decimal.text x "nan" "inf"
  | .text s => Text.quoted s
  | .list vs => "[" ++ String.intercalate ", " (shownItems vs) ++ "]"
  | .record fs => "\x7b" ++ String.intercalate ", " (shownFields fs) ++ "\x7d"

def shownItems : List Value → List String
  | [] => []
  | v :: vs => v.shown :: shownItems vs

def shownFields : List (String × Value) → List String
  | [] => []
  | (k,v) :: fs => (Text.quoted k ++ ": " ++ v.shown) :: shownFields fs

end

def plainText : Value → String
  | .text s => s
  | v => v.shown

end Confidential.Value
