import WorkflowControl.Entries
import WorkflowControl.Section.KeyCase

/-!
The tree that a document holds: sections of keyed nodes, where a node is a scalar or a section
again.

A section remembers the order of its entries and how it treats the case of keys. The operations
that write (`insert`, `withSection?`, `merge`) keep the place of a key that is there and put a new
key last. Reading takes a key as it is stored; folding is the writer's business.
-/

namespace WorkflowControl

/-- A scalar, or a section with its key case and its entries in order. -/
inductive Node where
  | scalar (value : Text)
  | subsection (mode : KeyCase) (entries : List (Text × Node))
  deriving Inhabited

/-- A section: its key case and its entries in order. -/
structure Section where
  mode : KeyCase := .fold
  entries : Entries Node := []
  deriving Inhabited

/-- A section as the value of a key. -/
def Section.toNode (s : Section) : Node := .subsection s.mode s.entries

namespace Node

/-- The text of a scalar. -/
def scalar? : Node → Option Text
  | scalar value => some value
  | subsection _ _ => none

/-- The section that a node is. -/
def section? : Node → Option Section
  | scalar _ => none
  | subsection mode entries => some ⟨mode, entries⟩

/-- Whether a node is a section. -/
def isSection : Node → Bool
  | scalar _ => false
  | subsection _ _ => true

mutual

/-- The number of scalars at and below a node. -/
def scalarCount : Node → Nat
  | scalar _ => 1
  | subsection _ entries => entriesScalarCount entries
termination_by structural n => n

/-- The number of scalars in the entries of a section and below. -/
def entriesScalarCount : List (Text × Node) → Nat
  | [] => 0
  | (_, node) :: rest => scalarCount node + entriesScalarCount rest
termination_by structural es => es

end

mutual

/-- The number of sections at and below a node. -/
def sectionCount : Node → Nat
  | scalar _ => 0
  | subsection _ entries => 1 + entriesSectionCount entries
termination_by structural n => n

/-- The number of sections in the entries of a section and below. -/
def entriesSectionCount : List (Text × Node) → Nat
  | [] => 0
  | (_, node) :: rest => sectionCount node + entriesSectionCount rest
termination_by structural es => es

end

mutual

/-- Whether two nodes hold the same: equal scalars, or sections with the same keys and the same
under each. The order of entries and the key case do not count. -/
def same : Node → Node → Bool
  | scalar a, other => other.scalar? == some a
  | subsection _ entries, other =>
    match other with
    | scalar _ => false
    | subsection _ others => entries.length == others.length && sameEntries entries others
termination_by structural n => n

/-- Whether every entry has a node that holds the same under its key in `others`. -/
def sameEntries : List (Text × Node) → Entries Node → Bool
  | [], _ => true
  | (key, node) :: rest, others =>
    (match others.get? key with
      | some other => same node other
      | none => false)
      && sameEntries rest others
termination_by structural es => es

end

mutual

/-- The node that a key holds after a node was merged over what it held. A scalar replaces it. A
section is merged into a section that is there, and otherwise into an empty one of the given mode.
-/
def mergeOver (mode : KeyCase) (held : Option Node) : Node → Node
  | scalar value => scalar value
  | subsection _ entries =>
    match held with
    | some (subsection heldMode heldEntries) =>
      subsection heldMode (mergeEntries heldMode heldEntries entries)
    | _ => subsection mode (mergeEntries mode [] entries)
termination_by structural n => n

/-- The entries of a section of the given mode after others were merged into them one by one. A
section that is new there is a child of this one, with the mode of a child. -/
def mergeEntries (mode : KeyCase) (entries : Entries Node) : List (Text × Node) → Entries Node
  | [] => entries
  | (key, node) :: rest =>
    mergeEntries mode
      (entries.put key (mergeOver (mode.ofChild key) (entries.get? key) node)) rest
termination_by structural es => es

end

end Node

namespace Section

/-- The number of entries. -/
def size (s : Section) : Nat := s.entries.length

/-- Whether the section has no entries. -/
def isEmpty (s : Section) : Bool := s.entries.isEmpty

/-- The keys in order. -/
def keys (s : Section) : List Text := s.entries.keys

/-- The node under `key`, as stored. -/
def get? (s : Section) (key : Text) : Option Node := s.entries.get? key

/-- The scalar under `key`. -/
def getScalar? (s : Section) (key : Text) : Option Text := (s.get? key).bind Node.scalar?

/-- The section under `key`. -/
def getSection? (s : Section) (key : Text) : Option Section := (s.get? key).bind Node.section?

/-- Whether `key` is there, as stored. -/
def contains (s : Section) (key : Text) : Bool := (s.get? key).isSome

/-- Writes `node` under the key that `key` is stored as. -/
def insert (s : Section) (key : Text) (node : Node) : Section :=
  { s with entries := s.entries.put (s.mode.stored key) node }

/-- The node that an `insert` at `key` replaces. -/
def replaced? (s : Section) (key : Text) : Option Node := s.get? (s.mode.stored key)

/-- Drops the entry of `key`, as stored. -/
def erase (s : Section) (key : Text) : Section := { s with entries := s.entries.erase key }

/-- The section with a child section under `name`, which is always lowered: the one that is there,
or a new empty one. A scalar of that name stands in the way. -/
def withSection? (s : Section) (name : Text) : Option Section :=
  let key := name.lower
  match s.get? key with
  | some (.scalar _) => none
  | some (.subsection _ _) => some s
  | none => some { s with entries := s.entries.put key (.subsection (s.mode.ofChild key) []) }

/-- Merges `added` into the section, sections into sections and otherwise overwriting. -/
def merge (s added : Section) : Section :=
  { s with entries := Node.mergeEntries s.mode s.entries added.entries }

/-- Whether two sections hold the same, apart from order and key case. -/
def same (s t : Section) : Bool := s.toNode.same t.toNode

/-- The number of scalars in the section and below. -/
def scalarCount (s : Section) : Nat := Node.entriesScalarCount s.entries

/-- The number of sections below the section. -/
def sectionCount (s : Section) : Nat := Node.entriesSectionCount s.entries

/-- The section that the stored keys of `path` lead to. -/
def at? (s : Section) : List Text → Option Section
  | [] => some s
  | key :: path =>
    match s.get? key with
    | some (.subsection mode entries) => at? ⟨mode, entries⟩ path
    | _ => none

/-- Replaces the section that the stored keys of `path` lead to by what `f` makes of it, if there
is such a section and `f` makes one. -/
def modifyAt? (f : Section → Option Section) : List Text → Section → Option Section
  | [], s => f s
  | key :: path, s =>
    match s.get? key with
    | some (.subsection mode entries) =>
      (modifyAt? f path ⟨mode, entries⟩).map fun child =>
        { s with entries := s.entries.put key child.toNode }
    | _ => none

/-- A section of the given mode with the pairs inserted in turn. -/
def ofList (mode : KeyCase) (pairs : List (Text × Node)) : Section :=
  pairs.foldl (fun s p => s.insert p.1 p.2) ⟨mode, []⟩

end Section

end WorkflowControl
