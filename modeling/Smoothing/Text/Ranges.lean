/-!
# Ranges of characters

A class of characters is given as a list of ranges of code points in increasing order.
-/

namespace Smoothing.Text

/-- Whether a code point is in one of the ranges, both ends included. The ranges are in increasing
order, so the search ends at the first range that starts after the code point. -/
def inRanges (c : Nat) : List (Nat × Nat) → Bool
  | [] => false
  | (first, last) :: ranges => if c < first then false else c ≤ last || inRanges c ranges

end Smoothing.Text
