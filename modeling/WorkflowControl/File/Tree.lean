import WorkflowControl.File.Basic

/-!
Trees of files held in memory, below a working directory. Paths are walked in it name by name, as
a file system walks them, so that a missing name, a directory and a file in the place of a
directory are told apart. What is above the working directory, up to the root, is directories of
which nothing else is known: a path that leads out of the working directory does not come back.
-/

namespace WorkflowControl

/-- Files by their names below the working directory, from the outermost directory on. -/
structure FileTree where
  files : List (List Text × List UInt8) := []

namespace FileTree

/-- The names of a relative path. -/
def names (path : Text) : List Text :=
  (Text.splitOn '/' path).filter fun name => !name.isEmpty && name != ['.']

/-- The tree with a file at a relative path, in place of the one that is there. -/
def add (tree : FileTree) (path : Text) (bytes : List UInt8) : FileTree :=
  ⟨(names path, bytes) :: tree.files⟩

/-- The bytes of the file of given names. -/
def file? (tree : FileTree) (path : List Text) : Option (List UInt8) :=
  (tree.files.find? fun f => f.1 == path).map Prod.snd

/-- Whether the names lead to a directory. -/
def isDirectory (tree : FileTree) (path : List Text) : Bool :=
  path.isEmpty || tree.files.any fun f => path.isPrefixOf f.1 && path.length < f.1.length

/-- A place in the tree or outside of it. -/
inductive Place where
  /-- A directory that is above the working directory or the root. -/
  | outside
  /-- The working directory or below it, by the names that lead there. -/
  | below (path : List Text)

/-- Whether a place is a directory. -/
def isDirectoryAt (tree : FileTree) : Place → Bool
  | .outside => true
  | .below path => tree.isDirectory path

/-- The directory that a directory is in; the root is in itself. -/
def Place.parent : Place → Place
  | .outside => .outside
  | .below path => if path.isEmpty then .outside else .below path.dropLast

/-- What a directory has under a name. -/
def child? (tree : FileTree) (name : Text) : Place → Option Place
  | .outside => none
  | .below path =>
    let inside := path ++ [name]
    if tree.isDirectory inside || (tree.file? inside).isSome then some (.below inside) else none

/-- The number of bytes of a text in UTF-8. -/
def byteCount (t : Text) : Nat := t.foldl (fun bytes c => bytes + c.utf8Size) 0

/-- The place that a name leads to from a place. A name has at most 255 bytes. -/
def step (tree : FileTree) (place : Place) (name : Text) : Except ReadFailure Place :=
  if !tree.isDirectoryAt place then .error .notDirectory
  else if name.isEmpty || name == ['.'] then .ok place
  else if name == ['.', '.'] then .ok place.parent
  else if byteCount name > 255 then .error .nameTooLong
  else
    match tree.child? name place with
    | some inside => .ok inside
    | none => .error .notFound

/-- The place that a path of at most 4095 bytes leads to, from the root or from the working
directory on. -/
def walk (tree : FileTree) (path : Text) : Except ReadFailure Place :=
  if path.isEmpty then .error .notFound
  else if path.contains '\x00' then .error .nulInPath
  else if byteCount path > 4095 then .error .nameTooLong
  else
    let start : Place := if path.head? == some '/' then .outside else .below []
    (Text.splitOn '/' path).foldlM tree.step start

/-- The bytes of the file at a path. -/
def read (tree : FileTree) : ReadBytes := fun path => do
  match ← tree.walk path with
  | .outside => .error .isDirectory
  | .below names =>
    match tree.file? names with
    | some bytes => .ok bytes
    | none => .error .isDirectory

end FileTree

end WorkflowControl
