import Confidential.Compiler
import Confidential.Proofs.AliasScopes
import Confidential.Proofs.Classification
import Confidential.Proofs.DeclaredEntries
import Confidential.Proofs.EvaluationOrder
import Confidential.Proofs.LexicalScope
import Confidential.Proofs.MappingLevels
import Confidential.Proofs.Normalization
import Confidential.Proofs.OwnersAndCiphertexts
import Confidential.Proofs.ParentLinks
import Confidential.Proofs.Partners
import Confidential.Proofs.PolicyUpdates
import Confidential.Proofs.RequestedKeys
import Confidential.Proofs.ReservedNames
import Confidential.Proofs.Settling
import Confidential.Proofs.SolidityErrors
import Confidential.Proofs.Tuples
