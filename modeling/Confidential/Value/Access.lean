import Confidential.Text.Search
import Confidential.Value

/-!
Parts of plain data by place, for data of a known form.
-/

namespace Confidential.Value

variable (v : Value)

def asText? : Value → Option String
  | .text s => some s
  | _ => none

def asText : String :=
  v.asText?.getD ""

def asList : Value → List Value
  | .list vs => vs
  | _ => []

def asTexts : List String :=
  v.asList.map asText

def asFields : Value → List (String × Value)
  | .record fs => fs
  | _ => []

def item (k : Nat) : Value :=
  (v.asList[k]?).getD .null

def textAt (k : Nat) : String :=
  (v.item k).asText

def entry (key : String) : Value :=
  (v.get? key).getD .null

def textOf (key : String) : String :=
  (v.entry key).asText

def itemsOf (key : String) : List Value :=
  (v.entry key).asList

def intOf? (key : String) : Option Int :=
  match v.entry key with
  | .int n => some n
  | _ => none

def intOf (key : String) : Int :=
  (v.intOf? key).getD 0

def flagOf (key : String) (fallback : Bool) : Bool :=
  match v.entry key with
  | .bool b => b
  | _ => fallback

def asNumber : Int :=
  match v with
  | .text s => (Text.integer? s).getD 0
  | v => v.asInt?.getD 0

mutual

def replace (piece new : String) : Value → Value
  | .text s => .text (Text.replace piece new s)
  | .list vs => .list (replaceItems piece new vs)
  | .record fs => .record (replaceFields piece new fs)
  | v => v

def replaceItems (piece new : String) : List Value → List Value
  | [] => []
  | v :: vs => v.replace piece new :: replaceItems piece new vs

def replaceFields (piece new : String) : List (String × Value) → List (String × Value)
  | [] => []
  | (k,v) :: fs => (Text.replace piece new k,v.replace piece new) :: replaceFields piece new fs

end

end Confidential.Value
