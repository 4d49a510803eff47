import WorkflowControl.Substitution

/-!
Resolved values of a document's keys: the node that a search finds, with the tokens of a scalar
substituted and its lists expanded.
-/

namespace WorkflowControl.Document

/-- The resolved value of a key, as far as the search finds one. Without `substituteTokens` a
scalar is given as it is stored. -/
def resolvedValue? (doc : Document) (key : Text) (search : Search) (services : Services)
    (substituteTokens : Bool := true) : Except Error (Option ResolvedValue) := do
  match ← doc.search key search with
  | none => .ok none
  | some (.subsection mode entries) => .ok (some (.subsection ⟨mode, entries⟩))
  | some (.scalar text) =>
    if substituteTokens then do
      let result ← substitute (.ofDocument doc search) services true text
      .ok (some result.toResolvedValue)
    else .ok (some (.scalar text))

end WorkflowControl.Document
