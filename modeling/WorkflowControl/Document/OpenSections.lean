import WorkflowControl.Document.Basic

/-!
The state of reading: the tree built so far, and the sections that are open.

A pair is written into the innermost open section. A tag opens a section in it, or closes it. A
tag with a label opens two, one in the other, and then either tag may close them: the label's
closes the inner one, and the outer one's closes both.

The open sections are kept by their keys. The tree may lose one of them, since a directive merges
into the root whatever is open, and then nothing can be written before it is closed.
-/

namespace WorkflowControl

/-- An open section; `isLabel` says that the label of a tag opened it. -/
structure OpenSection where
  key : Text
  isLabel : Bool
  deriving DecidableEq

/-- A line of a file. -/
structure Position where
  file : Text
  line : Nat

/-- The tree read so far, and the open sections with the innermost one first. -/
structure ReadState where
  root : Section
  openSections : List OpenSection := []

namespace ReadState

/-- The keys of the open sections, outermost first. -/
def path (st : ReadState) : List Text := (st.openSections.map OpenSection.key).reverse

/-- The innermost open section, if it is still there. -/
def current? (st : ReadState) : Option Section := st.root.at? st.path

/-- The tree as a document. -/
def document (st : ReadState) : Document := { root := st.root }

/-- The error of a fault at a position. -/
def failure (st : ReadState) (pos : Position) (fault : StructuralFault) : Error :=
  .structural pos.file (some pos.line) fault st.path

/-- Writes a value into the innermost open section. -/
def insertPair (st : ReadState) (pos : Position) (key value : Text) : Except Error ReadState :=
  match st.root.modifyAt? (fun s => some (s.insert key (.scalar value))) st.path with
  | some root => .ok { st with root := root }
  | none => .error (st.failure pos .sectionLost)

/-- Opens one section inside the innermost open one. -/
def enter (st : ReadState) (pos : Position) (opened : OpenSection) : Except Error ReadState :=
  match st.current? with
  | none => .error (st.failure pos .sectionLost)
  | some _ =>
    match st.root.modifyAt? (fun s => s.withSection? opened.key) st.path with
    | some root => .ok ⟨root, opened :: st.openSections⟩
    | none => .error (st.failure pos (.nameTaken opened.key))

/-- Opens the section of a tag, and within it that of the label. -/
def openTag (st : ReadState) (pos : Position) (key : Text) (label : Option Text) :
    Except Error ReadState :=
  if st.openSections.head?.map OpenSection.key = some key then
    .error (st.failure pos (.sameName key))
  else do
    let opened ← st.enter pos ⟨key, false⟩
    match label with
    | none => .ok opened
    | some label => opened.enter pos ⟨label, true⟩

/-- Closes the innermost open section, or together with it the one that its label stands in. -/
def closeTag (st : ReadState) (pos : Position) (key : Text) : Except Error ReadState :=
  match st.openSections with
  | [] => .error (st.failure pos (.closeOutside key))
  | [top] =>
    if top.key = key then .ok { st with openSections := [] }
    else .error (st.failure pos (.closeMismatch key top.key))
  | top :: below :: rest =>
    if top.key = key then .ok { st with openSections := below :: rest }
    else if top.isLabel then
      if below.key = key then .ok { st with openSections := rest }
      else .error (st.failure pos (.closeMismatch key below.key))
    else .error (st.failure pos (.closeMismatch key top.key))

end ReadState

end WorkflowControl
