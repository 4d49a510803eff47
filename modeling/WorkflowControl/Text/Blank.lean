/-!
Blank characters: what is trimmed from the ends of a text and what separates the words of a line.
The class is the `White_Space` property of Unicode, 25 characters, wider than the blanks of ASCII.
-/

namespace WorkflowControl.Text

/-- Whether `c` is a blank of any script. -/
def isBlank (c : Char) : Bool :=
  let n := c.toNat
  (9 ≤ n && n ≤ 13) || n == 0x20 || n == 0x85 || n == 0xA0 || n == 0x1680
    || (0x2000 ≤ n && n ≤ 0x200A) || n == 0x2028 || n == 0x2029 || n == 0x202F || n == 0x205F
    || n == 0x3000

end WorkflowControl.Text
