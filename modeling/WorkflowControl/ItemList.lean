import WorkflowControl.Text.Integer

/-!
Lists written into one value. Items stand between delimiters, parentheses anywhere are decoration,
and an item that begins with two numerals and a colon between them, such as `1:4`, stands for the
numbers from the first to the second, both included.
-/

namespace WorkflowControl.ItemList

/-- Whether a resolved value is a list: it opens with a parenthesis or has a comma in it. -/
def isList (value : Text) : Bool :=
  value.head? == some '(' || value.contains ','

/-- The two runs of digits that an item begins with, a colon between them. -/
def rangeBounds? (item : Text) : Option (Text × Text) :=
  let first := item.takeWhile Text.isDigit
  match item.dropWhile Text.isDigit with
  | ':' :: rest =>
    let last := rest.takeWhile Text.isDigit
    if first.isEmpty || last.isEmpty then none else some (first, last)
  | _ => none

/-- The numerals from `a` to `b`, none if `b` is smaller. -/
def numerals (a b : Nat) : List Text := (List.range' a (b + 1 - a)).map Text.ofNat

/-- What one trimmed item stands for: the numerals of a range whose bounds fit 64 bits, or itself.
-/
def expandItem (item : Text) : List Text :=
  match rangeBounds? item with
  | none => [item]
  | some (first, last) =>
    match Text.unsigned? 64 first, Text.unsigned? 64 last with
    | some a, some b => numerals a b
    | _, _ => [item]

/-- The items of a value, trimmed and with ranges written out. An empty value is one empty item.
-/
def split (text : Text) (delim : Char) : List Text :=
  (Text.splitOn delim (text.filter fun c => c != '(' && c != ')')).flatMap fun piece =>
    expandItem piece.trim

end WorkflowControl.ItemList
