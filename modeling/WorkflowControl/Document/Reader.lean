import WorkflowControl.Document.OpenSections
import WorkflowControl.Document.Reading
import WorkflowControl.Document.Value
import WorkflowControl.Environment
import WorkflowControl.Line
import WorkflowControl.LogicalLine

/-!
Reading a document from its text, line by line.

The reader goes through the logical lines with the tree built so far and the sections that are
open. Pairs and tags change these; a directive reads a further file, or calls a function, and
merges what it gives into the root of the tree, whichever section is open.

Files that are included may include files themselves, up to the limit of the reader. The recursion
is on the depth that is left, so a file that includes itself ends in an error.
-/

namespace WorkflowControl

/-- What a text is read with: services and limit, the environment of the paths of included files,
and the files themselves. -/
structure DocumentReader where
  services : Services := {}
  environment : Environment := {}
  readInclude : Text → Except ReadFailure Text

namespace DocumentReader

/-- A way to read a text into a tree, given the file's name and the key case of its top level. -/
abbrev TreeReader := (file : Text) → (mode : KeyCase) → (text : Text) → Reading Section

/-- Includes the file at a target and merges it into the root. Its top level takes the key case of
the innermost open section. Its text is read with `nested`, which is not there once the limit of
depth is reached. -/
def includeFile (reader : DocumentReader) (nested : Option TreeReader) (pos : Position)
    (target : Text) (st : ReadState) : Reading ReadState :=
  match nested with
  | none => .fail (st.failure pos (.includeTooDeep reader.services.limit target))
  | some nested => do
    let expanded ← .ofExcept
      (substituteOne (.ofDocument st.document {}) reader.services false target)
    let path := reader.environment.expandPath expanded
    let text ← .ofExcept ((reader.readInclude path).mapError (.read path))
    let mode := (st.current?.map Section.mode).getD .fold
    let included ← nested path mode text
    return { st with root := st.root.merge included }

/-- The name and the argument list of the body of a function directive: what stands before the
first parenthesis, and what stands between it and the next closing one. -/
def splitCall? (body : Text) : Option (Text × Text) :=
  match body.after? '(' with
  | none => none
  | some rest =>
    let name := body.upTo '('
    let args := rest.upTo ')'
    if name.isEmpty || args.isEmpty || !rest.contains ')' then none else some (name, args)

/-- The resolved values of the keys, by key. A key that is not there is reported and left out. -/
def callArguments (reader : DocumentReader) (pos : Position) (name : Text) (doc : Document) :
    List Text → SectionArguments → Reading SectionArguments
  | [], args => pure args
  | key :: rest, args => do
    match ← .ofExcept (doc.resolvedValue? key {} reader.services) with
    | some value => reader.callArguments pos name doc rest (args.put key value)
    | none => do
      .warn (.missingArgument pos.file pos.line name key)
      reader.callArguments pos name doc rest args

/-- Calls the function of a directive and merges its section into the root. -/
def includeCall (reader : DocumentReader) (pos : Position) (body : Text) (st : ReadState) :
    Reading ReadState :=
  match splitCall? body with
  | none => .fail (st.failure pos (.invalidCall body))
  | some (name, args) => do
    let name := name.trim
    let args ← reader.callArguments pos name st.document (ItemList.split args ',') []
    let added ← .ofExcept (reader.services.functions.callSection name args)
    return { st with root := st.root.merge added }

/-- Reads one logical line. -/
def readLine (reader : DocumentReader) (nested : Option TreeReader) (file : Text)
    (line : LogicalLine) (st : ReadState) : Reading ReadState :=
  let pos : Position := ⟨file, line.number⟩
  match Line.classify line.text with
  | .includeFile target => reader.includeFile nested pos target st
  | .includeCall body => reader.includeCall pos body st
  | .close key => .ofExcept (st.closeTag pos key)
  | .openSection key label => .ofExcept (st.openTag pos key label)
  | .pair key value => .ofExcept (st.insertPair pos key value)
  | .unmatched => do
    .warn (.unmatchedLine file line.number line.text)
    return st

/-- Reads logical lines in turn. -/
def readLines (reader : DocumentReader) (nested : Option TreeReader) (file : Text) :
    List LogicalLine → ReadState → Reading ReadState
  | [], st => pure st
  | line :: rest, st => do
    let st ← reader.readLine nested file line st
    reader.readLines nested file rest st

/-- Reads a whole text, which has to close the sections that it opens. -/
def readWhole (reader : DocumentReader) (nested : Option TreeReader) (file : Text)
    (mode : KeyCase) (text : Text) : Reading Section := do
  let st ← reader.readLines nested file (LogicalLine.ofText text) { root := { mode := mode } }
  if st.openSections.isEmpty then return st.root
  else .fail (.structural file none .unclosed st.path)

/-- Reads a text whose includes may be nested as deep as `depth` says. -/
def readWithin (reader : DocumentReader) : (depth : Nat) → TreeReader
  | 0 => reader.readWhole none
  | depth + 1 => reader.readWhole (some (reader.readWithin depth))

/-- Reads a document from a text. The name of the file is for messages; `mode` is the key case of
the top level. -/
def readText (reader : DocumentReader) (file : Text) (mode : KeyCase) (text : Text) :
    Reading Document := do
  return { root := ← reader.readWithin reader.services.limit file mode text }

/-- Reads a document from the file at a path, which is its name as well. -/
def readAt (reader : DocumentReader) (read : Text → Except ReadFailure Text) (path : Text)
    (mode : KeyCase) : Reading Document := do
  let text ← .ofExcept ((read path).mapError (.read path))
  reader.readText path mode text

end DocumentReader

end WorkflowControl
