import Mathlib.Init

namespace Prismal.Utils

/-- `ceil(len(text) / 4)` -/
def estimateTokens (text : String) : Nat := (text.length + 3) / 4

theorem estimateTokens_append (a b : String) :
    estimateTokens (a ++ b) ≤ estimateTokens a + estimateTokens b := by
  rw [estimateTokens, estimateTokens, estimateTokens, String.length_append]
  omega

end Prismal.Utils
