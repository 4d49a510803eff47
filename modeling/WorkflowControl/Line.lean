import WorkflowControl.Text.Case

/-!
What a line of a document says. The forms of a line are tried in turn: a directive that includes a
file or calls a function, wherever it stands in the line; a closing tag; an opening tag, with or
without a label; a key and a value with `=` between them; and a key and a value with a blank
between them. A line of none of these forms says nothing.
-/

namespace WorkflowControl

/-- What a logical line says. -/
inductive Line where
  /-- Include the file at a target, which may have tokens in it. -/
  | includeFile (target : Text)
  /-- Call the function that a body names with the arguments that it lists. -/
  | includeCall (body : Text)
  | close (key : Text)
  | openSection (key : Text) (label : Option Text)
  | pair (key value : Text)
  /-- The line has none of the forms. -/
  | unmatched
  deriving DecidableEq

namespace Line

/-- The first result of `f` on the rests of `t`, from the whole of it on. -/
def firstSome? {α : Type} (f : Text → Option α) : Text → Option α
  | [] => f []
  | c :: cs =>
    match f (c :: cs) with
    | some a => some a
    | none => firstSome? f cs

/-- The text up to the last `>>` in it. -/
def upToLastClose? : Text → Option Text
  | [] => none
  | c :: cs =>
    match upToLastClose? cs with
    | some before => some (c :: before)
    | none => if c = '>' ∧ cs.head? = some '>' then some [] else none

/-- The opening of an include directive. -/
def includeOpening : Text := ['<', '<', 'i', 'n', 'c', 'l', 'u', 'd', 'e', ' ']

/-- The opening of a function directive. -/
def callOpening : Text := ['<', '<', 'i', 'n', 'c', 'l', 'f', 'u', 'n', 'c', ' ']

/-- The target of an include directive at the start of `t`: a word without blanks that is not
empty, up to the last `>>` of the word. -/
def includeHere? (t : Text) : Option Text :=
  match Text.behind? includeOpening t with
  | none => none
  | some rest =>
    match upToLastClose? (rest.takeWhile fun c => !Text.isBlank c) with
    | some (c :: cs) => some (c :: cs)
    | _ => none

/-- The body of a function directive at the start of `t`: a text without `>` that is not empty,
with `>>` behind it. -/
def callHere? (t : Text) : Option Text :=
  match Text.behind? callOpening t with
  | none => none
  | some rest =>
    let body := rest.takeWhile (· != '>')
    if body.isEmpty then none
    else if (rest.dropWhile (· != '>')).take 2 = ['>', '>'] then some body
    else none

/-- What stands between `opening` at the start and `>` at the end of a line, blanks around both
aside. -/
def inside? (opening : Text) (line : Text) : Option Text :=
  match Text.behind? opening line.trimStart with
  | none => none
  | some rest =>
    match rest.trimEnd.getLast? with
    | some '>' => some rest.trimEnd.dropLast
    | _ => none

/-- The word that a text is, blanks around it aside. -/
def word? (t : Text) : Option Text :=
  if t.trim.isEmpty || t.trim.any Text.isBlank then none else some t.trim

/-- The key of a closing tag. -/
def closing? (line : Text) : Option Text := (inside? ['<', '/'] line).bind word?

/-- The word that a text starts with, and what follows it. -/
def cutWord (t : Text) : Text × Text :=
  (t.takeWhile fun c => !Text.isBlank c, t.dropWhile fun c => !Text.isBlank c)

/-- The name of an opening tag and its label, if it has one. The name stands at the start of the
tag; behind it come blanks, then nothing or one word up to the end. -/
def opening? (line : Text) : Option (Text × Option Text) :=
  match inside? ['<'] line with
  | none => none
  | some content =>
    let (name, rest) := cutWord content
    let label := rest.trimStart
    if name.isEmpty || label.any Text.isBlank then none
    else some (name, if label.isEmpty then none else some label)

/-- Cuts a word at its last `=` that has a character before it and, in the word or in what follows
it, one behind it. -/
def cutAtEquals? (rest : Text) : Text → Option (Text × Text)
  | [] => none
  | c :: cs =>
    match cutAtEquals? rest cs with
    | some (key, value) => some (c :: key, value)
    | none =>
      match cs with
      | '=' :: value => if (value ++ rest).isEmpty then none else some ([c], value ++ rest)
      | _ => none

/-- The key and the value of a line with `=` between them. The key is the first word if an `=`
with something behind it is next, and otherwise that word up to an `=` in it. -/
def equalsPair? (line : Text) : Option (Text × Text) :=
  let (word, rest) := cutWord line.trimStart
  if word.isEmpty then none
  else
    match rest.trimStart with
    | '=' :: c :: cs => some (word, Text.trim (c :: cs))
    | _ => (cutAtEquals? rest word).map fun p => (p.1, p.2.trim)

/-- The key and the value of a line with blanks between them. Where the value is empty or starts
with `=`, there have to be two blanks. -/
def blankPair? (line : Text) : Option (Text × Text) :=
  let (word, rest) := cutWord line.trimStart
  let blanks := rest.takeWhile Text.isBlank
  let value := rest.trimStart
  if word.isEmpty || blanks.isEmpty then none
  else if (value.isEmpty || value.head? == some '=') && blanks.length < 2 then none
  else some (word, value.trim)

/-- What a line says. Keys and labels of tags are lowered. -/
def classify (line : Text) : Line :=
  match firstSome? includeHere? line with
  | some target => includeFile target
  | none =>
  match firstSome? callHere? line with
  | some body => includeCall body
  | none =>
  match closing? line with
  | some key => close key.lower
  | none =>
  match opening? line with
  | some (name, label) => openSection name.lower (label.map Text.lower)
  | none =>
  match (equalsPair? line).or (blankPair? line) with
  | some (key, value) => pair key value
  | none => unmatched

end Line

end WorkflowControl
