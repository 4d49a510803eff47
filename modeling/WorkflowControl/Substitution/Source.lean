import WorkflowControl.Document.Basic
import WorkflowControl.FunctionTable
import WorkflowControl.Header.Source

/-!
What a substitution draws on: a source of variables, and the services (headers, functions, the
search for tokens) with the limit that bounds every loop.

A document resolves a name under a search, in any case of the name; a section and a map resolve it
as it is stored. A name that leads to a section is an error wherever it is looked up.

A search is built for each token to find its occurrences, by a matcher that is not part of the
library. It may refuse a token, such as one that is too long for it, so the services say which ones
it refuses and in which words.
-/

namespace WorkflowControl

/-- Where variables get their values: the value of a name, or nothing, or an error. -/
abbrev Source := Text → Except Error (Option Text)

/-- The headers and functions of a substitution, its search for tokens, and the limit of its loops.
-/
structure Services where
  limit : Nat := 100
  functions : FunctionTable := {}
  headers : HeaderSource := .none
  /-- What is wrong with a token that no search can be built for. -/
  searchFault? : Text → Option Text := fun _ => none

namespace Source

/-- The value that a node found under `name` gives to the variable. -/
def ofNode (name : Text) : Option Node → Except Error (Option Text)
  | none => .ok none
  | some (.scalar value) => .ok (some value)
  | some (.subsection _ _) => .error (.value name .isSection)

/-- The variables of a document under a search. -/
def ofDocument (doc : Document) (search : Search) : Source :=
  fun name => ofNode name (doc.find? search name.lower)

/-- The scalars of a section under their stored keys. -/
def ofSection (s : Section) : Source := fun name => ofNode name (s.get? name)

/-- The values of an ordered map. -/
def ofEntries (entries : Entries Text) : Source := fun name => .ok (entries.get? name)

end Source

end WorkflowControl
