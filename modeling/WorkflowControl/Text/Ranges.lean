/-!
Classes of characters given as ranges of code points.
-/

namespace WorkflowControl.Text

/-- Whether `n` lies in one of the ranges, ends included. -/
def inRanges (ranges : List (Nat × Nat)) (n : Nat) : Bool :=
  ranges.any fun r => decide (r.1 ≤ n) && decide (n ≤ r.2)

end WorkflowControl.Text
