/-!
# Sets of code points

A character class is a list of closed ranges of code points.
-/

namespace GatedMaze.Text

/-- Whether `n` lies in one of the closed ranges. -/
def inRanges (ranges : List (Nat × Nat)) (n : Nat) : Bool :=
  ranges.any fun r => r.1 ≤ n && n ≤ r.2

end GatedMaze.Text
