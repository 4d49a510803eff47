import WorkflowControl.Entries
import WorkflowControl.Error
import WorkflowControl.ResolvedValue

/-!
The results of a substitution. A branch is one text together with the values that were chosen for
it, by name. A substitution in which no list was expanded has a single branch; one with lists has
a branch for each combination of their items, which may be none at all.
-/

namespace WorkflowControl

/-- A text in substitution and the values chosen so far, by name. -/
structure Branch where
  value : Text
  keep : Entries Text := []
  deriving DecidableEq

/-- The result of a substitution: one branch, or those that the unrolling of markers gave. -/
inductive Substitution.Result where
  | single (branch : Branch)
  | multi (branches : List Branch)
  deriving DecidableEq

namespace Substitution.Result

/-- The branches of a result. -/
def branches : Result → List Branch
  | single branch => [branch]
  | multi branches => branches

/-- The texts of the branches. -/
def values (s : Result) : List Text := s.branches.map Branch.value

/-- The texts as a resolved value. -/
def toResolvedValue (s : Result) : ResolvedValue := .ofTexts s.values

/-- The text of the one branch that the substitution of `input` gave. -/
def one (input : Text) : Result → Except Error Text
  | single branch => .ok branch.value
  | multi [branch] => .ok branch.value
  | multi branches => .error (.ambiguous input branches.length)

end Substitution.Result

end WorkflowControl
