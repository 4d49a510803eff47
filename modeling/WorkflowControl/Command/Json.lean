import WorkflowControl.Substitution

/-!
Branches as JSON: a list of objects with the text and the values chosen for it, two blanks for
each level. Text is escaped where JSON asks for it and otherwise written as it is.
-/

namespace WorkflowControl.Json

/-- The lowercase hexadecimal digit of a number below 16. -/
def hexDigit (n : Nat) : Char :=
  if n < 10 then Char.ofNat ('0'.toNat + n) else Char.ofNat ('a'.toNat + (n - 10))

/-- A character inside a JSON string. -/
def escape (c : Char) : Text :=
  if c = '"' then ['\\', '"']
  else if c = '\\' then ['\\', '\\']
  else if c = '\x08' then ['\\', 'b']
  else if c = '\x0c' then ['\\', 'f']
  else if c = '\n' then ['\\', 'n']
  else if c = '\r' then ['\\', 'r']
  else if c = '\t' then ['\\', 't']
  else if c.toNat < 32 then
    ['\\', 'u', '0', '0', hexDigit (c.toNat / 16), hexDigit (c.toNat % 16)]
  else [c]

/-- A text as a JSON string. -/
def string (t : Text) : Text := '"' :: (t.flatMap escape ++ ['"'])

/-- The blanks of a level. -/
def margin (level : Nat) : Text := List.replicate (2 * level) ' '

/-- Written parts between two brackets, each on a line of its own; without parts the brackets
stand together. -/
def bracket (opening closing : Char) (level : Nat) (parts : List Text) : Text :=
  if parts.isEmpty then [opening, closing]
  else
    opening :: '\n' :: (Text.joinWith [',', '\n'] (parts.map (margin (level + 1) ++ ·))
      ++ '\n' :: (margin level ++ [closing]))

/-- A member of an object. -/
def member (name value : Text) : Text := string name ++ [':', ' '] ++ value

/-- An ordered map of texts as an object. -/
def ofEntries (level : Nat) (entries : Entries Text) : Text :=
  bracket '{' '}' level (entries.map fun e => member e.1 (string e.2))

/-- A branch as an object. -/
def ofBranch (level : Nat) (branch : Branch) : Text :=
  bracket '{' '}' level
    [member ['v', 'a', 'l', 'u', 'e'] (string branch.value),
      member ['k', 'e', 'e', 'p'] (ofEntries (level + 1) branch.keep)]

/-- Branches as a list. -/
def ofBranches (branches : List Branch) : Text :=
  bracket '[' ']' 0 (branches.map (ofBranch 1))

end WorkflowControl.Json
