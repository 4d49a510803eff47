import WorkflowControl.Document.Basic

/-!
Writing a document as text: a line `key = value` for a scalar, and an opening and a closing line
around the entries of a section. A `#` in a value is written with a backslash before it, since it
would start a comment. Entries can be sorted by their keys, but not those of a `cmdline` section
or anything below it, where the order is that of a command line.
-/

namespace WorkflowControl

namespace Text

/-- The text with a backslash before every `#`. -/
def escapeHash (t : Text) : Text := t.flatMap fun c => if c = '#' then ['\\', '#'] else [c]

/-- The order of texts by code point. -/
def le (a b : Text) : Bool := !decide (b < a)

end Text

namespace Node

/-- Puts an entry in front of the first one whose key is not smaller. -/
def insertSorted {α : Type} (entry : Text × α) : Entries α → Entries α
  | [] => [entry]
  | e :: rest => if Text.le entry.1 e.1 then entry :: e :: rest else e :: insertSorted entry rest

/-- The entries in the order of their keys. -/
def sortEntries {α : Type} : Entries α → Entries α
  | [] => []
  | entry :: rest => insertSorted entry (sortEntries rest)

/-- The printed entries one after the other, in the order of their keys if they are to be sorted.
-/
def joinPrinted (sort : Bool) (printed : Entries Text) : Text :=
  (if sort then sortEntries printed else printed).flatMap Prod.snd

mutual

/-- The lines of one entry at a level of nesting. -/
def printEntry (sort : Bool) (indent level : Nat) (key : Text) : Node → Text
  | scalar value =>
    List.replicate (indent * level) ' ' ++ key ++ [' ', '=', ' '] ++ value.escapeHash ++ ['\n']
  | subsection _ entries =>
    let margin : Text := List.replicate (indent * level) ' '
    let sortChild := sort && key != KeyCase.cmdline
    margin ++ '<' :: (key ++ ['>', '\n'])
      ++ joinPrinted sortChild (printEntries sortChild indent (level + 1) entries)
      ++ margin ++ '<' :: '/' :: (key ++ ['>', '\n'])
termination_by structural n => n

/-- The lines of each entry, under its key. -/
def printEntries (sort : Bool) (indent level : Nat) : List (Text × Node) → Entries Text
  | [] => []
  | (key, node) :: rest =>
    (key, printEntry sort indent level key node) :: printEntries sort indent level rest
termination_by structural es => es

end

end Node

/-- The text of a section at the outermost level. -/
def Section.print (s : Section) (sort : Bool) (indent : Nat) : Text :=
  Node.joinPrinted sort (Node.printEntries sort indent 0 s.entries)

/-- The text of a document. -/
def Document.print (doc : Document) (sort : Bool) (indent : Nat) : Text :=
  doc.root.print sort indent

end WorkflowControl
