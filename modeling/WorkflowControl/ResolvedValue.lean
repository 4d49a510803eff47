import WorkflowControl.Section.Basic

/-!
Resolved values: what a key stands for once its variables are substituted.
-/

namespace WorkflowControl

/-- A resolved value: a text, the texts that a value expanded into, or a section. -/
inductive ResolvedValue where
  | scalar (text : Text)
  | list (texts : List Text)
  | subsection (value : Section)

namespace ResolvedValue

/-- The value of a list of results: a scalar if there is exactly one. -/
def ofTexts : List Text → ResolvedValue
  | [text] => scalar text
  | texts => list texts

end ResolvedValue

end WorkflowControl
