import Confidential.Analysis
import Confidential.Catalogue
import Confidential.Description
import Confidential.Digest.Sha512
import Confidential.Log
import Confidential.Main
import Confidential.Masking
import Confidential.Outline
import Confidential.Shell
import Confidential.Text.Case
import Confidential.Trial.Plan
import Confidential.Trial.Results

/-!
The compiler with all of its parts.
-/
