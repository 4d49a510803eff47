import WorkflowControl.Text.Basic
import WorkflowControl.Text.Case.Context
import WorkflowControl.Text.Case.Folding
import WorkflowControl.Text.Case.Lowercase
import WorkflowControl.Text.Case.Uppercase
import WorkflowControl.Text.Ranges

/-!
Letter case of texts. Keys are folded with `lower`, header keywords with `upper`, and two
spellings of one token are compared with `sameFold`, character by character.

`lower` depends on the surroundings of a character in one place only: a capital sigma that ends a
word becomes the final small sigma. It ends a word if the nearest character before it that is not
case-ignorable is cased and the nearest one after it is not.
-/

namespace WorkflowControl.Text

/-- The ASCII small letter of an ASCII capital; any other character is left as it is. -/
def asciiLower (c : Char) : Char :=
  if 'A' ≤ c ∧ c ≤ 'Z' then Char.ofNat (c.toNat + 32) else c

/-- The ASCII capital of an ASCII small letter; any other character is left as it is. -/
def asciiUpper (c : Char) : Char :=
  if 'a' ≤ c ∧ c ≤ 'z' then Char.ofNat (c.toNat - 32) else c

/-- The image of `c` under a table for the characters outside ASCII. -/
def mapped (runs : List CaseRun) (c : Char) : Char :=
  match imageIn? runs c.toNat with
  | some n => Char.ofNat n
  | none => c

/-- The lowercase form of one character, apart from its surroundings. -/
def lowerChar (c : Char) : Text :=
  if c.toNat < 128 then [asciiLower c]
  else if c.toNat = 0x130 then ['i', Char.ofNat 0x307]
  else [mapped lowercaseRuns c]

/-- The uppercase form of one character. -/
def upperChar (c : Char) : Text :=
  if c.toNat < 128 then [asciiUpper c]
  else match uppercaseExpansions.find? fun e => e.1 == c.toNat with
    | some e => e.2.map Char.ofNat
    | none => [mapped uppercaseRuns c]

/-- The form of a character that its other case shares. -/
def foldChar (c : Char) : Char :=
  if c.toNat < 128 then asciiLower c else mapped foldingRuns c

/-- Whether `c` is cased. -/
def isCased (c : Char) : Bool := inRanges casedRanges c.toNat

/-- Whether `c` is looked past when the surroundings of a sigma are asked for. -/
def isCaseIgnorable (c : Char) : Bool := inRanges caseIgnorableRanges c.toNat

/-- Whether the first character of `t` that is not case-ignorable is cased. -/
def startsCased (t : Text) : Bool :=
  match t.dropWhile isCaseIgnorable with
  | [] => false
  | c :: _ => isCased c

/-- Lowers a text whose left surroundings are cased or not, as `afterCased` says. -/
def lowerFrom (afterCased : Bool) : Text → Text
  | [] => []
  | c :: cs =>
    (if c = 'Σ' then (if afterCased && !startsCased cs then ['ς'] else ['σ']) else lowerChar c)
      ++ lowerFrom (if isCaseIgnorable c then afterCased else isCased c) cs

/-- The lowercase form of a text. -/
def lower (t : Text) : Text := lowerFrom false t

/-- The uppercase form of a text. -/
def upper (t : Text) : Text := t.flatMap upperChar

/-- Whether two characters differ in case at most. -/
def sameFold (a b : Char) : Bool := foldChar a == foldChar b

end WorkflowControl.Text
