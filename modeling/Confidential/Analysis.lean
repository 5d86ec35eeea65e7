import Confidential.Analysis.Circuits
import Confidential.Analysis.EvaluationOrder
import Confidential.Analysis.Finals
import Confidential.Analysis.Returns

/-!
The analyses of a program.
-/
