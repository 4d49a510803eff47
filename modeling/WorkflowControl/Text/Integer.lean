import WorkflowControl.Text.Basic
import WorkflowControl.Text.Digit

/-!
Integers in texts. A numeral is an optional sign and ASCII digits, at least one, and nothing else:
no blanks, no separators. Its value has to fit the word it is read into, and a numeral that does
not fit is no numeral of that word.
-/

namespace WorkflowControl.Text

/-- The number that a non-empty run of ASCII digits denotes. -/
def digits? (t : Text) : Option Nat :=
  if t.isEmpty || !t.all isAsciiDigit then none
  else some (t.foldl (fun n c => 10 * n + (c.toNat - '0'.toNat)) 0)

/-- A numeral without a minus sign that denotes a number below `2 ^ bits`. -/
def unsigned? (bits : Nat) (t : Text) : Option Nat :=
  let magnitude := match t with
    | '+' :: ds => digits? ds
    | ds => digits? ds
  magnitude.filter (· < Nat.pow 2 bits)

/-- The least number that is too large for a signed word of 64 bits. -/
def wordEnd : Int := Nat.pow 2 63

/-- Whether a number fits a signed word of 64 bits. -/
def fitsWord (z : Int) : Bool := decide (-wordEnd ≤ z) && decide (z < wordEnd)

/-- A numeral, signed or not, that denotes a number of a signed word of 64 bits. -/
def signed? (t : Text) : Option Int :=
  let number : Option Int := match t with
    | '-' :: ds => (digits? ds).map fun n => -(n : Int)
    | '+' :: ds => (digits? ds).map fun n => (n : Int)
    | ds => (digits? ds).map fun n => (n : Int)
  number.filter fitsWord

/-- The decimal numeral of an integer. -/
def ofInt : Int → Text
  | .ofNat n => ofNat n
  | .negSucc n => '-' :: ofNat (n + 1)

/-- The numeral of `z` with zeros between sign and digits, so that it has `width` characters; one
that is as long already stays as it is. -/
def zeroPadded (width : Nat) (z : Int) : Text :=
  let digits := ofNat z.natAbs
  if z < 0 then '-' :: (List.replicate (width - 1 - digits.length) '0' ++ digits)
  else List.replicate (width - digits.length) '0' ++ digits

end WorkflowControl.Text
