import WorkflowControl.Error
import WorkflowControl.Section.Basic

/-!
Documents and the search for a key in them.

A key without dots is searched in layers, and the first layer that has it decides: the current
bindings (those of the search, then those in the document's section `current`), the extra section
of the search, the section instances that the search order selects, and the top level of the
document. An instance of section type `t` is selected by the scalar that the current bindings hold
for `curr_t`.

A key with dots is a path of stored keys, and no layer has a say in it.
-/

namespace WorkflowControl

/-- A tree and the order in which its section types are searched. -/
structure Document where
  root : Section := {}
  searchOrder : List Text := []

/-- What one search takes into account besides the document. -/
structure Search where
  /-- Bindings that go before those of the document. -/
  bindings : Section := {}
  /-- A section that is searched after the bindings. -/
  extra : Option Section := none
  /-- Whether a missing key is an error. -/
  required : Bool := false

/-- The section with one more binding. -/
def Search.bind (search : Search) (key value : Text) : Search :=
  { search with bindings := search.bindings.insert key (.scalar value) }

namespace Document

/-- The section of a document that holds its current bindings. -/
def currentName : Text := ['c', 'u', 'r', 'r', 'e', 'n', 't']

/-- The binding that selects the instance of section type `sectionType`. -/
def instanceBinding (sectionType : Text) : Text := ['c', 'u', 'r', 'r', '_'] ++ sectionType

/-- The node that the current bindings hold for `key`. -/
def bound? (doc : Document) (search : Search) (key : Text) : Option Node :=
  match search.bindings.get? key with
  | some node => some node
  | none => (doc.root.getSection? currentName).bind fun current => current.get? key

/-- The node of `key` in the instance that is selected for `sectionType`. -/
def instanceValue? (doc : Document) (search : Search) (key sectionType : Text) : Option Node :=
  match doc.bound? search (instanceBinding sectionType) with
  | some (.scalar name) =>
    ((doc.root.getSection? sectionType).bind fun s => s.getSection? name).bind fun s => s.get? key
  | _ => none

/-- The node of `key` in the first layer that has it. -/
def findInLayers? (doc : Document) (search : Search) (key : Text) : Option Node :=
  match doc.bound? search key with
  | some node => some node
  | none =>
    match search.extra.bind fun extra => extra.get? key with
    | some node => some node
    | none =>
      match doc.searchOrder.findSome? (doc.instanceValue? search key) with
      | some node => some node
      | none => doc.root.get? key

/-- The node that a path of stored keys leads to. -/
def findAt? (s : Section) : List Text → Option Node
  | [] => none
  | [key] => s.get? key
  | key :: path =>
    match s.get? key with
    | some (.subsection mode entries) => findAt? ⟨mode, entries⟩ path
    | _ => none

/-- The node of a key that is lowered already: by its path if it has dots, by the layers if not.
-/
def find? (doc : Document) (search : Search) (key : Text) : Option Node :=
  if key.contains '.' then findAt? doc.root (Text.splitOn '.' key)
  else doc.findInLayers? search key

/-- The node of `key` in any case, or an error if the search requires one. -/
def search (doc : Document) (key : Text) (search : Search) : Except Error (Option Node) :=
  match doc.find? search key.lower with
  | some node => .ok (some node)
  | none => if search.required then .error (.lookup key.lower) else .ok none

/-- The node of `key`, or `default` if there is none and the search does not require one. -/
def get (doc : Document) (key : Text) (search : Search) (default : Node) : Except Error Node :=
  (doc.search key search).map fun node => node.getD default

/-- The scalar of `key` under a search with nothing besides the document. -/
def getScalar? (doc : Document) (key : Text) : Option Text :=
  (doc.find? {} key.lower).bind Node.scalar?

/-- Whether `key` is found. -/
def contains (doc : Document) (key : Text) (search : Search) : Bool :=
  (doc.find? search key.lower).isSome

/-- The document searched in the given order of section types. -/
def withSearchOrder (doc : Document) (order : List Text) : Document :=
  { doc with searchOrder := order.map Text.lower }

/-- Merges a section into the root. -/
def update (doc : Document) (added : Section) : Document :=
  { doc with root := doc.root.merge added }

/-- Binds `key` in the document's own current bindings, which are there from then on. -/
def bindCurrent (doc : Document) (key value : Text) : Except Error Document :=
  let bound := (doc.root.withSection? currentName).bind fun root =>
    root.modifyAt? (fun current => some (current.insert key (.scalar value))) [currentName]
  match bound with
  | some root => .ok { doc with root := root }
  | none => .error (.value currentName .bindingsTaken)

/-- Writes a node at a dotted path. The sections on the way have to be there. -/
def set (doc : Document) (key : Text) (node : Node) : Except Error Document :=
  let parts := Text.splitOn '.' key
  let parents := parts.dropLast.map Text.lower
  let leaf := parts.getLast?.getD []
  match doc.root.modifyAt? (fun s => some (s.insert leaf node)) parents with
  | none => .error (.lookup key)
  | some root => .ok { doc with root := root }

end Document

end WorkflowControl
