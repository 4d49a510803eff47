import WorkflowControl.Text.Case

/-!
What a section does to the case of its keys. Keys are folded to lowercase as a rule. The sections
that hold the flags of a command line keep them as written, and so does everything inside them.
-/

namespace WorkflowControl

/-- How a section treats the case of the keys written into it. -/
inductive KeyCase where
  /-- Keys are lowered when they are written. -/
  | fold
  /-- Keys are kept as they are. -/
  | preserve
  deriving DecidableEq, Repr

namespace KeyCase

/-- The section of command-line arguments, whose order counts as well. -/
def cmdline : Text := ['c', 'm', 'd', 'l', 'i', 'n', 'e']

/-- The section of argument substitutions. -/
def replace : Text := ['r', 'e', 'p', 'l', 'a', 'c', 'e']

/-- A key as it is stored under the mode. -/
def stored : KeyCase → Text → Text
  | fold, key => key.lower
  | preserve, key => key

/-- The mode of the child section `name` of a section with this mode. -/
def ofChild (mode : KeyCase) (name : Text) : KeyCase :=
  if mode = preserve ∨ name = cmdline ∨ name = replace then preserve else fold

end KeyCase

end WorkflowControl
