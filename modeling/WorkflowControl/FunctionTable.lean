import WorkflowControl.Error
import WorkflowControl.ResolvedValue

/-!
The functions that a document may call. A text function takes texts and gives the text that
stands in place of the call. A section function takes resolved values by name and gives a section
that is merged into the document. A table knows both kinds by their names, each kind apart from the
other.
-/

namespace WorkflowControl

/-- The resolved values that a section function is called with, by name. -/
abbrev SectionArguments := Entries ResolvedValue

/-- A function of texts. -/
abbrev TextFunction := List Text → Except Error Text

/-- A function of resolved values that makes a section. -/
abbrev SectionFunction := SectionArguments → Except Error Section

/-- The functions known, by name. The empty table knows none. -/
structure FunctionTable where
  textFunction? : Text → Option TextFunction := fun _ => none
  sectionFunction? : Text → Option SectionFunction := fun _ => none

namespace FunctionTable

/-- Calls the text function `name`. -/
def callText (table : FunctionTable) (name : Text) (args : List Text) : Except Error Text :=
  match table.textFunction? name with
  | some f => f args
  | none => .error (.unknownFunction name)

/-- Calls the section function `name`. -/
def callSection (table : FunctionTable) (name : Text) (args : SectionArguments) :
    Except Error Section :=
  match table.sectionFunction? name with
  | some f => f args
  | none => .error (.unknownFunction name)

end FunctionTable

end WorkflowControl
