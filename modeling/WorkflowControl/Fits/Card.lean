import WorkflowControl.Text.Case
import WorkflowControl.Text.Utf8

/-!
The cards of a FITS header. A card is 80 bytes: a keyword in the first eight, and, if `= `
follows, a value with an optional comment behind a slash. A text value stands in quotes, a quote
in it is written twice, and blanks at its end do not count. The logical values are written `T` and
`F`.
-/

namespace WorkflowControl.Fits

/-- What a card says. -/
inductive Card where
  | value (keyword value : Text)
  /-- The last card of a header. -/
  | last
  /-- A comment, a blank card or any other one without a value. -/
  | other
  deriving DecidableEq, Repr

namespace Card

/-- The number of bytes of a keyword. -/
def keywordSize : Nat := 8

/-- The keyword of the last card. -/
def lastKeyword : Text := ['E', 'N', 'D']

/-- The text in quotes, from behind the opening quote to the closing one or the end. -/
def quoted : Text → Text
  | [] => []
  | ['\x27'] => []
  | [c] => [c]
  | c :: d :: cs =>
    if c = '\x27' then if d = '\x27' then c :: quoted cs else []
    else c :: quoted (d :: cs)

/-- The value that a field gives, as text: a quoted text without its quotes and the blanks at its
end, a logical value in words, anything else as it is written. -/
def readValue (field : Text) : Text :=
  match field.trimStart with
  | '\x27' :: rest => (quoted rest).trimEnd
  | field =>
    let value := (field.upTo '/').trim
    if value = ['T'] then ['T', 'r', 'u', 'e']
    else if value = ['F'] then ['F', 'a', 'l', 's', 'e']
    else value

/-- What a text of any length says as a card. -/
def ofText (text : Text) : Card :=
  match Text.splitAtByte keywordSize text with
  | none => if text.trimEnd = lastKeyword then last else other
  | some (start, rest) =>
    let keyword := start.trimEnd
    if keyword = lastKeyword then last
    else
      match rest with
      | '=' :: ' ' :: field =>
        if keyword.isEmpty then other else value keyword.upper (readValue field)
      | _ => other

/-- What the bytes of a card say. -/
def ofBytes (bytes : List UInt8) : Card := ofText (Text.decodeLossy bytes)

end Card

end WorkflowControl.Fits
