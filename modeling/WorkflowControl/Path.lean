import WorkflowControl.Text.Basic

/-!
When two paths are the same path: repeated slashes, a slash at the end and the name `.` after the
start do not count. A `.` at the start does, and so does `..` anywhere, since what it leads to
hangs on the files.
-/

namespace WorkflowControl.Path

/-- Whether a path starts at the root. -/
def isAbsolute (path : Text) : Bool := path.head? == some '/'

/-- The names of a path that count. -/
def names (path : Text) : List Text :=
  match Text.splitOn '/' path with
  | [] => []
  | first :: rest =>
    (if first.isEmpty then [] else [first])
      ++ rest.filter fun name => !name.isEmpty && name != ['.']

/-- Whether two paths are the same path. -/
def same (a b : Text) : Bool := isAbsolute a == isAbsolute b && names a == names b

end WorkflowControl.Path
