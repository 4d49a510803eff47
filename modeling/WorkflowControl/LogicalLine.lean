import WorkflowControl.Text.Basic

/-!
The logical lines of a text. A logical line is a physical line with the ones joined to it, each
without the blanks around it: a backslash at the end of a line joins the next one. What stands
behind a `#` is a comment, unless there is a backslash before it; such a `#` stands for itself.
-/

namespace WorkflowControl

/-- A logical line with the number of its last physical line, counted from 1. -/
structure LogicalLine where
  number : Nat
  text : Text
  deriving DecidableEq

namespace LogicalLine

/-- The logical lines of the physical lines behind the first `number` ones, where `pending` is the
start of a line that the first of them is joined to. -/
def join (number : Nat) (pending : Option Text) : List Text → List LogicalLine
  | [] =>
    match pending with
    | none => []
    | some text => [⟨number, text⟩]
  | physical :: rest =>
    let text := pending.getD [] ++ physical.trim
    if text.getLast? = some '\\' then join (number + 1) (some text.dropLast) rest
    else ⟨number + 1, text⟩ :: join (number + 1) none rest

/-- The text up to the first `#` that has no backslash before it; `escaped` says whether the
character before the text is a backslash. -/
def cutComment (escaped : Bool) : Text → Text
  | [] => []
  | c :: cs => if c = '#' ∧ escaped = false then [] else c :: cutComment (c == '\\') cs

/-- The text with `#` for every `\#`. -/
def unescapeHash : Text → Text
  | [] => []
  | [c] => [c]
  | c :: d :: cs =>
    if c = '\\' ∧ d = '#' then '#' :: unescapeHash cs else c :: unescapeHash (d :: cs)

/-- The text without its comment. -/
def withoutComment (t : Text) : Text := unescapeHash (cutComment false t)

/-- The logical lines of a text without their comments, apart from blank ones. -/
def ofText (t : Text) : List LogicalLine :=
  ((join 0 none t.lines).map fun l => { l with text := withoutComment l.text }).filter fun l =>
    !l.text.trim.isEmpty

end LogicalLine

end WorkflowControl
