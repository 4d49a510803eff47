import WorkflowControl.Text.Blank

/-!
Texts and the operations that the format needs on them: trimming, cutting at a character,
splitting and joining, and the lines of a text.

A text is a list of characters. The operations are the list operations or recursions on the list,
so that what they do to a text can be read off their equations.
-/

namespace WorkflowControl

/-- A text is the list of its characters. -/
abbrev Text := List Char

namespace Text

/-- Whether all characters of a text have a property is found by going through the text, and not
through all characters that there are. -/
instance decidableForallMem (p : Char → Prop) [DecidablePred p] (t : Text) :
    Decidable (∀ c ∈ t, p c) := List.decidableBAll p t

instance decidableForallMemOption (p : Char → Prop) [DecidablePred p] (c? : Option Char) :
    Decidable (∀ c ∈ c?, p c) := Option.decidableForallMem c?

/-- The text without the blanks at its start. -/
def trimStart (t : Text) : Text := t.dropWhile isBlank

/-- The text without the blanks at its end. -/
def trimEnd (t : Text) : Text := (t.reverse.dropWhile isBlank).reverse

/-- The text without the blanks at both ends. -/
def trim (t : Text) : Text := trimEnd (trimStart t)

/-- The text up to the first `stop`, or all of it. -/
def upTo (stop : Char) (t : Text) : Text := t.takeWhile (· != stop)

/-- What follows the first `stop`. -/
def after? (stop : Char) : Text → Option Text
  | [] => none
  | c :: cs => if c = stop then some cs else after? stop cs

/-- What is left of `t` behind `start`, if it starts so. -/
def behind? : (start t : Text) → Option Text
  | [], t => some t
  | _ :: _, [] => none
  | s :: start, c :: t => if s = c then behind? start t else none

/-- The pieces between the occurrences of `delim`; a text without it is one piece. -/
def splitOn (delim : Char) : Text → List Text
  | [] => [[]]
  | c :: cs =>
    if c = delim then [] :: splitOn delim cs
    else match splitOn delim cs with
      | [] => [[c]]
      | piece :: pieces => (c :: piece) :: pieces

/-- The texts one after the other with `sep` between them. -/
def joinWith (sep : Text) : List Text → Text
  | [] => []
  | [t] => t
  | t :: ts => t ++ sep ++ joinWith sep ts

/-- The lines of a text. A line end closes a line, so one at the very end opens no further line.
-/
def lines : Text → List Text
  | [] => []
  | c :: cs =>
    if c = '\n' then [] :: lines cs
    else match lines cs with
      | [] => [[c]]
      | line :: rest => (c :: line) :: rest

/-- Every line followed by a line end. -/
def unlines (ls : List Text) : Text := ls.flatMap fun l => l ++ ['\n']

/-- The decimal numeral of a number. -/
def ofNat (n : Nat) : Text := Nat.toDigits 10 n

theorem splitOn_ne_nil (delim : Char) (t : Text) : splitOn delim t ≠ [] := by
  cases t with
  | nil => simp [splitOn]
  | cons c cs =>
    rw [splitOn]
    split
    · simp
    · split <;> simp

/-- The pieces with the delimiter between them are the text again. -/
theorem joinWith_splitOn (delim : Char) (t : Text) : joinWith [delim] (splitOn delim t) = t := by
  induction t with
  | nil => rfl
  | cons c cs ih =>
    cases h : splitOn delim cs with
    | nil => exact absurd h (splitOn_ne_nil delim cs)
    | cons piece pieces =>
      rw [h] at ih
      by_cases hc : c = delim
      · simp [splitOn, hc, h, joinWith, ih]
      · cases pieces with
        | nil => simp_all [splitOn, joinWith]
        | cons p ps => simp_all [splitOn, joinWith]

end Text

end WorkflowControl
