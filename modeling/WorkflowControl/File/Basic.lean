import WorkflowControl.File.Failure
import WorkflowControl.Text.Utf8

/-!
Readers of files. A file is its bytes; its text is what the bytes are in UTF-8, if they are that.

A file that is moved about in has one more property, the greatest offset that its file system
allows. Its bytes never reach beyond it.
-/

namespace WorkflowControl

/-- A reader of files: the bytes of the file at a path. -/
abbrev ReadBytes := (path : Text) → Except ReadFailure (List UInt8)

/-- The text of the file at a path. -/
def ReadBytes.text (read : ReadBytes) (path : Text) : Except ReadFailure Text :=
  (read path).bind fun bytes =>
    match Text.decode? bytes with
    | some text => .ok text
    | none => .error .notUtf8

/-- A file to move about in. One can go to any offset in it and also behind its end, but not
beyond the greatest offset that its file system has, which is never before its end. -/
structure SeekableFile where
  bytes : List UInt8
  maxOffset : Nat
  length_le_maxOffset : bytes.length ≤ maxOffset

namespace SeekableFile

/-- The greatest offset as a rule: that of a file with as many blocks as 32 bits count, each of
4096 bytes. -/
def usualMaxOffset : Nat := (UInt32.size - 1) * 4096

/-- The file of given bytes, on a file system that can hold them. -/
def ofBytes (bytes : List UInt8) : SeekableFile :=
  ⟨bytes, max bytes.length usualMaxOffset, Nat.le_max_left ..⟩

end SeekableFile

end WorkflowControl
