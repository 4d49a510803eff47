import WorkflowControl.Document.Basic

/-!
The variables that a document refers to. A reference is a `$` with a non-empty content in braces
behind it; its name is the content up to the first colon.
-/

namespace WorkflowControl

namespace Text

/-- The contents of the references behind the first `skip` characters of a text, in order. Where no
closing brace is left there are no more. -/
def referencesFrom : Nat → Text → List Text
  | _, [] => []
  | skip + 1, _ :: cs => referencesFrom skip cs
  | 0, c :: cs =>
    match c, cs with
    | '$', '{' :: rest =>
      let content := rest.takeWhile (· != '}')
      if content.length == rest.length then []
      else if content.isEmpty then referencesFrom 0 cs
      else content :: referencesFrom (content.length + 2) cs
    | _, _ => referencesFrom 0 cs

/-- The names of the references in a text, in order. -/
def referenceNames (t : Text) : List Text := (referencesFrom 0 t).map (upTo ':')

end Text

namespace Node

mutual

/-- The names of the references in the scalars at and below a node, in order. -/
def referenceNames : Node → List Text
  | scalar value => value.referenceNames
  | subsection _ entries => entriesReferenceNames entries
termination_by structural n => n

/-- The names of the references in the scalars of the entries of a section and below. -/
def entriesReferenceNames : List (Text × Node) → List Text
  | [] => []
  | (_, node) :: rest => referenceNames node ++ entriesReferenceNames rest
termination_by structural es => es

end

end Node

/-- The names that a document refers to, each once, in the order in which they come up. -/
def Document.referenceNames (doc : Document) : List Text :=
  (Node.entriesReferenceNames doc.root.entries).foldl
    (fun seen name => if seen.contains name then seen else seen ++ [name]) []

end WorkflowControl
