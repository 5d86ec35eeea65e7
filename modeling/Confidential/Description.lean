import Confidential.Description.Members
import Confidential.Description.Slots
import Confidential.Policy.Draft

/-!
Everything that can be asked of the nodes of a program, and changed in them: their fields, their
members, their types, and the findings of the analyses.
-/
