import WorkflowControl.File.Failure
import WorkflowControl.Path

/-!
Texts held in memory under paths, for includes that come with a program instead of from a disk.
Two paths that are the same path name the same text.
-/

namespace WorkflowControl

/-- Texts by their paths. Of two texts under one path the first one counts. -/
structure MemoryFiles where
  files : List (Text × Text) := []

namespace MemoryFiles

/-- The files with a text under a path, in place of the one that is there. -/
def add (memory : MemoryFiles) (path text : Text) : MemoryFiles := ⟨(path, text) :: memory.files⟩

/-- The text under a path. -/
def read (memory : MemoryFiles) (path : Text) : Except ReadFailure Text :=
  match memory.files.find? fun file => Path.same file.1 path with
  | some file => .ok file.2
  | none => .error (.notInMemory path)

end MemoryFiles

end WorkflowControl
