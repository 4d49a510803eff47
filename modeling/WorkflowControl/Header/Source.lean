import WorkflowControl.Entries
import WorkflowControl.Error
import WorkflowControl.Path
import WorkflowControl.Text.Case

/-!
Where header values come from. A source answers for one key of a file, or for several keys of one
file at once, which lets it open the file once. Two sources are here: the one that has no headers,
and the one that has them in a table.
-/

namespace WorkflowControl

/-- A source of header values. -/
structure HeaderSource where
  /-- The value of one key of the file at a path. -/
  value : (path key : Text) → Except HeaderFault Text
  /-- The values of several keys of the file at a path. -/
  values : (path : Text) → (keys : List Text) → Except HeaderFault (List Text) :=
    fun path keys => keys.mapM (value path)

namespace HeaderSource

/-- The source without headers: every key is refused. -/
def none : HeaderSource where
  value _ key := .error (.noHeaders key)

/-- A table of header values: the keys, in uppercase, of each file. -/
structure Table where
  files : List (Text × Entries Text) := []

namespace Table

/-- The entries of the file at `path`. -/
def entries? (table : Table) (path : Text) : Option (Entries Text) :=
  (table.files.find? fun file => Path.same file.1 path).map Prod.snd

/-- Writes a value under a key of the file at `path`. -/
def add (table : Table) (path key value : Text) : Table :=
  let entries := ((table.entries? path).getD []).put key.upper value
  ⟨(path, entries) :: table.files.filter fun file => !Path.same file.1 path⟩

end Table

/-- The source of a table, which takes a key in any case. -/
def ofTable (table : Table) : HeaderSource where
  value path key :=
    match table.entries? path with
    | Option.none => .error .noSuchFile
    | some entries =>
      match entries.get? key.upper with
      | Option.none => .error (.noSuchKey key)
      | some value => .ok value

/-- The values of several keys, with the path in the error. -/
def read (source : HeaderSource) (path : Text) (keys : List Text) : Except Error (List Text) :=
  (source.values path keys).mapError (.header path)

end HeaderSource

end WorkflowControl
