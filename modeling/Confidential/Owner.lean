/-!
The owners that need no declaration.
-/

namespace Confidential

/-- Who may see a value: the caller, everybody, or the trusted execution environment alone. -/
inductive Owner where
  | me
  | all
  | tee
deriving DecidableEq, Inhabited

def Owner.word : Owner → String
  | .me => "me"
  | .all => "all"
  | .tee => "tee"
end Confidential
