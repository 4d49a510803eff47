import WorkflowControl.Text.Basic

/-!
Why a file could not be read. The texts of the failures are those of the operating system where it
is the one that refuses.
-/

namespace WorkflowControl

/-- Why a file could not be read. -/
inductive ReadFailure where
  | notFound
  | isDirectory
  | permissionDenied
  /-- A name in the middle of the path, or one with a slash behind it, is a file. -/
  | notDirectory
  | nameTooLong
  /-- The path has a NUL character in it, which no file name can have. -/
  | nulInPath
  /-- The file system has no files that are long enough for an offset. -/
  | invalidOffset
  /-- The bytes are there and are no text. -/
  | notUtf8
  /-- A set of files held in memory has none under this path. -/
  | notInMemory (path : Text)
  /-- The file was not looked at yet. A caller that reads files on demand answers by reading it. -/
  | notLoaded
  deriving DecidableEq, Repr

/-- The text of a failure. -/
def ReadFailure.message : ReadFailure → Text
  | notFound => "No such file or directory (os error 2)".toList
  | isDirectory => "Is a directory (os error 21)".toList
  | permissionDenied => "Permission denied (os error 13)".toList
  | notDirectory => "Not a directory (os error 20)".toList
  | nameTooLong => "File name too long (os error 36)".toList
  | nulInPath => "file name contained an unexpected NUL byte".toList
  | invalidOffset => "Invalid argument (os error 22)".toList
  | notUtf8 => "stream did not contain valid UTF-8".toList
  | notInMemory path => path ++ " not in memory resolver".toList
  | notLoaded => "file not loaded".toList

end WorkflowControl
