import WorkflowControl.Document.Basic
import WorkflowControl.Proofs.FirstFound
import WorkflowControl.Proofs.Section.DeepMerge
import WorkflowControl.Proofs.Text.Lower

/-!
Where a search looks. A key without dots is looked for in a list of cells, which are places in the
search and in the document: the current bindings, the extra section, the instances that are selected
for the section types in their order, and the top level. The result is the node of the first cell
that has one (`findInLayers?_eq`). So two searches agree if their cells hold the same, and a section
type that comes up again, or for which nothing is selected, might as well not be in the order
(`firstOfCells_search`).
-/

namespace WorkflowControl

/-- A place where a search may find a node. -/
inductive Cell where
  /-- A key of the bindings of the search. -/
  | binding (key : Text)
  /-- A key of the extra section of the search. -/
  | extra (key : Text)
  /-- A path of stored keys in the document. -/
  | stored (path : List Text)
  deriving DecidableEq

namespace Document

/-- The node in a cell. -/
def read (doc : Document) (search : Search) : Cell → Option Node
  | .binding key => search.bindings.get? key
  | .extra key => search.extra.bind fun extra => extra.get? key
  | .stored path => doc.root.node? path

/-- The node in the first of some cells that has one. -/
def first? (doc : Document) (search : Search) (cells : List Cell) : Option Node :=
  cells.findSome? (doc.read search)

/-- The cells of the current bindings for a key, those of the search before those of the document.
-/
def bindingCells (key : Text) : List Cell := [.binding key, .stored [currentName, key]]

/-- The name of the instance that is selected for a section type, which is the scalar that the
current bindings hold for it. -/
def selected? (doc : Document) (search : Search) (sectionType : Text) : Option Text :=
  (doc.first? search (bindingCells (instanceBinding sectionType))).bind Node.scalar?

/-- The cell of a key in the instance that is selected for a section type. -/
def instanceCell? (doc : Document) (search : Search) (key sectionType : Text) : Option Cell :=
  (doc.selected? search sectionType).map fun name => .stored [sectionType, name, key]

/-- The cells that a key without dots is looked for in, in order. -/
def cells (doc : Document) (search : Search) (key : Text) : List Cell :=
  bindingCells key ++ .extra key
    :: (doc.searchOrder.filterMap (doc.instanceCell? search key) ++ [.stored [key]])

variable {doc : Document} {search : Search} {key : Text}

theorem bound?_eq (doc : Document) (search : Search) (key : Text) :
    doc.bound? search key = doc.first? search (bindingCells key) := by
  have hcurrent : doc.root.node? [currentName, key]
      = (doc.root.getSection? currentName).bind fun current => current.get? key := by
    have hpath := doc.root.node?_concat [currentName] key
    rwa [← List.nil_append [currentName], Section.at?_concat] at hpath
  rw [bound?, first?, bindingCells, List.findSome?_cons, read]
  cases search.bindings.get? key with
  | some node => rfl
  | none =>
    show _ = List.findSome? (doc.read search) [.stored [currentName, key]]
    rw [List.findSome?_singleton, read, hcurrent]

theorem instanceValue?_eq (doc : Document) (search : Search) (key sectionType : Text) :
    doc.instanceValue? search key sectionType
      = (doc.instanceCell? search key sectionType).bind (doc.read search) := by
  have hentry (name : Text) : doc.root.node? [sectionType, name, key]
      = ((doc.root.getSection? sectionType).bind fun s => s.getSection? name).bind
          fun s => s.get? key := by
    have hpath := doc.root.node?_concat ([] ++ [sectionType] ++ [name]) key
    rwa [Section.at?_concat, Section.at?_concat] at hpath
  rw [instanceValue?, bound?_eq, instanceCell?, selected?]
  cases doc.first? search (bindingCells (instanceBinding sectionType)) with
  | none => rfl
  | some node =>
    cases node with
    | subsection mode entries => rfl
    | scalar name => exact (hentry name).symm

/-- The layers are gone through cell by cell. -/
theorem findInLayers?_eq (doc : Document) (search : Search) (key : Text) :
    doc.findInLayers? search key = doc.first? search (doc.cells search key) := by
  have htypes : (doc.searchOrder.filterMap (doc.instanceCell? search key)).findSome?
      (doc.read search) = doc.searchOrder.findSome? (doc.instanceValue? search key) := by
    rw [← List.head?_filterMap, List.filterMap_filterMap, List.head?_filterMap]
    exact congrArg (List.findSome? · doc.searchOrder)
      (funext fun sectionType => (doc.instanceValue?_eq search key sectionType).symm)
  have hroot : doc.root.node? [key] = doc.root.get? key := doc.root.node?_concat [] key
  rw [findInLayers?, bound?_eq, first?, first?, cells, List.findSome?_append, List.findSome?_cons,
    List.findSome?_append, htypes, List.findSome?_singleton, read, read, hroot]
  cases (bindingCells key).findSome? (doc.read search) with
  | some node => rfl
  | none =>
    cases search.extra.bind fun extra => extra.get? key with
    | some node => rfl
    | none =>
      cases doc.searchOrder.findSome? (doc.instanceValue? search key) with
      | some node => rfl
      | none => rfl

/-! ## Searches -/

/-- What a search answers for a key, given what was found for it. -/
def answer (search : Search) (key : Text) : Option Node → Except Error (Option Node)
  | some node => .ok (some node)
  | none => if search.required then .error (.lookup key) else .ok none

theorem search_eq_answer (doc : Document) (search : Search) (key : Text) :
    doc.search key search = answer search key.lower (doc.find? search key.lower) := by
  rw [Document.search]
  cases doc.find? search key.lower <;> rfl

theorem contains_dot_lower (key : Text) : key.lower.contains '.' = true ↔ '.' ∈ key := by
  rw [List.contains_iff_mem, Text.mem_lower_iff (by decide)]

theorem find?_undotted (h : '.' ∉ key) (doc : Document) (search : Search) :
    doc.find? search key.lower = doc.findInLayers? search key.lower := by
  rw [find?, if_neg (mt (contains_dot_lower key).mp h)]

/-- A key without dots is looked for in its cells. -/
theorem search_eq (h : '.' ∉ key) (doc : Document) (search : Search) :
    doc.search key search
      = answer search key.lower (doc.first? search (doc.cells search key.lower)) := by
  rw [search_eq_answer, find?_undotted h, findInLayers?_eq]

/-- A key with dots leads to its node whatever the search is. -/
theorem search_eq_of_mem (h : '.' ∈ key) (doc : Document) (search : Search) :
    doc.search key search
      = answer search key.lower (findAt? doc.root (Text.splitOn '.' key.lower)) := by
  rw [search_eq_answer, find?, if_pos ((contains_dot_lower key).mpr h)]

/-- What is asked of the search for a key: to give the node of the first of its cells that has one.
-/
structure FirstOfCells (doc : Document) (search : Search) (key : Text) : Prop where
  found : '.' ∉ key → ∀ node, doc.first? search (doc.cells search key.lower) = some node →
    doc.search key search = .ok (some node)
  missing : '.' ∉ key → doc.first? search (doc.cells search key.lower) = none →
    doc.search key search
      = if search.required then .error (.lookup key.lower) else .ok none
  /-- Searches whose cells hold the same nodes agree. -/
  agrees : '.' ∉ key → ∀ (other : Document) (its : Search), its.required = search.required →
    (other.cells its key.lower).map (other.read its)
      = (doc.cells search key.lower).map (doc.read search) →
    other.search key its = doc.search key search
  /-- A section type that was in the order before has no say, whatever the order is. -/
  repeated : ∀ before sectionType between after,
    ({ doc with searchOrder := before ++ sectionType :: (between ++ sectionType :: after) }
        : Document).search key search
      = ({ doc with searchOrder := before ++ sectionType :: (between ++ after) }
        : Document).search key search
  /-- A section type for which no scalar selects an instance has no say, whatever the order is. -/
  unselected : ∀ before sectionType after, doc.selected? search sectionType = none →
    ({ doc with searchOrder := before ++ sectionType :: after } : Document).search key search
      = ({ doc with searchOrder := before ++ after } : Document).search key search
  contains : doc.contains key search = true ↔ ∃ node, doc.search key search = .ok (some node)
  get : ∀ default, doc.get key search default
    = match doc.search key search with
      | .ok (some node) => .ok node
      | .ok none => .ok default
      | .error e => .error e

/-- The order counts only for what is found in the instances of its section types. -/
theorem search_of_order {order order' : List Text}
    (h : order.findSome? (doc.instanceValue? search key.lower)
      = order'.findSome? (doc.instanceValue? search key.lower)) :
    ({ doc with searchOrder := order } : Document).search key search
      = ({ doc with searchOrder := order' } : Document).search key search := by
  have hvalue (order : List Text) :
      ({ doc with searchOrder := order } : Document).instanceValue? search key.lower
        = doc.instanceValue? search key.lower := rfl
  have hbound (order : List Text) :
      ({ doc with searchOrder := order } : Document).bound? search key.lower
        = doc.bound? search key.lower := rfl
  simp only [search_eq_answer, find?, findInLayers?, hvalue, hbound, h]

theorem instanceValue?_of_unselected {sectionType : Text}
    (h : doc.selected? search sectionType = none) (key : Text) :
    doc.instanceValue? search key sectionType = none := by
  rw [instanceValue?_eq, instanceCell?, h]
  rfl

theorem contains_iff (doc : Document) (search : Search) (key : Text) :
    doc.contains key search = true ↔ ∃ node, doc.search key search = .ok (some node) := by
  rw [Document.contains, search_eq_answer]
  cases doc.find? search key.lower with
  | some node => exact iff_of_true rfl ⟨node, rfl⟩
  | none =>
    refine iff_of_false nofun ?_
    intro hfound
    obtain ⟨node, hnode⟩ := hfound
    rw [answer] at hnode
    split at hnode <;> cases hnode

/-- The search for a key goes through its cells, and so do `contains` and `get`. -/
theorem firstOfCells_search (doc : Document) (search : Search) (key : Text) :
    doc.FirstOfCells search key where
  found hdot node hnode := by
    rw [search_eq hdot, hnode]
    rfl
  missing hdot hnone := by
    rw [search_eq hdot, hnone]
    rfl
  agrees hdot other its hrequired hcells := by
    -- What is found first can be told from what the cells hold.
    have hfirst : other.first? its (other.cells its key.lower)
        = doc.first? search (doc.cells search key.lower) := by
      have hhead := congrArg (List.findSome? id) hcells
      rwa [List.findSome?_map, List.findSome?_map] at hhead
    rw [search_eq hdot, search_eq hdot, hfirst]
    unfold answer
    rw [hrequired]
  repeated before sectionType between after :=
    search_of_order (findSome?_repeated _ before between after sectionType)
  unselected before sectionType after h := by
    refine search_of_order ?_
    rw [List.findSome?_append, List.findSome?_append, List.findSome?_cons,
      instanceValue?_of_unselected h]
  contains := contains_iff doc search key
  get default := by
    rw [Document.get]
    rcases doc.search key search with e | (_ | node) <;> rfl

end Document

end WorkflowControl
