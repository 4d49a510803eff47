/-!
Case maps as runs. The case pairs of a script are mostly regular (a block of capitals and the
block of its small letters, or capital and small letter in turn), so a map is a short list of runs
instead of a long list of pairs.
-/

namespace WorkflowControl.Text

/-- Every `step`-th character from `first` to `last` is mapped, the first one to `target` and each
other one to the character as far behind `target` as it is behind `first`. -/
structure CaseRun where
  first : Nat
  last : Nat
  step : Nat
  target : Nat

/-- The image of `n` under one run. -/
def CaseRun.image? (r : CaseRun) (n : Nat) : Option Nat :=
  if r.first ≤ n ∧ n ≤ r.last ∧ (n - r.first) % r.step = 0 then some (r.target + (n - r.first))
  else none

/-- The image of `n` under the first run that maps it. -/
def imageIn? (runs : List CaseRun) (n : Nat) : Option Nat :=
  runs.findSome? fun r => r.image? n

end WorkflowControl.Text
