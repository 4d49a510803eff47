import WorkflowControl.Error
import WorkflowControl.Text.Integer

/-!
Widths. A token with a width asks for an integer, written with zeros in front up to that width.
-/

namespace WorkflowControl.Substitution

/-- The width that a token with this content asks for: a number of 16 bits, blanks around it. -/
def width (content text : Text) : Except Error Nat :=
  match Text.unsigned? 16 text.trim with
  | some width => .ok width
  | none => .error (.value content (.invalidWidth text))

/-- The integer that a value is, blanks around it, with zeros up to the width. -/
def padded (width : Nat) (value : Text) : Except Error Text :=
  match Text.signed? value.trim with
  | some z => .ok (Text.zeroPadded width z)
  | none => .error (.value value (.notInteger width))

end WorkflowControl.Substitution
