import WorkflowControl.Fits.Fault

/-!
What can go wrong when a document is read or a value is substituted. An error says what happened
in the terms of the format; `Error.message` is the one place that puts it into words.
-/

namespace WorkflowControl

/-- What is wrong with the structure of a text. -/
inductive StructuralFault where
  /-- A section is opened directly inside a section of the same name. -/
  | sameName (key : Text)
  /-- A section is opened whose name already holds a scalar. -/
  | nameTaken (key : Text)
  /-- A section is closed and none is open. -/
  | closeOutside (key : Text)
  /-- A section is closed that is not the one to close next. -/
  | closeMismatch (key expected : Text)
  /-- The text ends inside a section. -/
  | unclosed
  /-- A merge from a directive has put a scalar in the place of an open section. -/
  | sectionLost
  /-- An include goes deeper than the limit. -/
  | includeTooDeep (limit : Nat) (target : Text)
  /-- The body of a function directive is not a name with arguments. -/
  | invalidCall (body : Text)
  deriving DecidableEq, Repr

/-- What is wrong with a value. -/
inductive ValueFault where
  /-- A variable names a section. -/
  | isSection
  /-- A width is no number of 16 bits. -/
  | invalidWidth (width : Text)
  /-- A value to be padded is no integer of 64 bits. -/
  | notInteger (width : Nat)
  /-- The name of the bindings section holds a scalar. -/
  | bindingsTaken
  /-- No search could be built for a token, in the words of what builds it. -/
  | noSearch (message : Text)
  deriving DecidableEq, Repr

/-- Why a header value could not be had. -/
inductive HeaderFault where
  /-- There are no headers at all; the key is the one asked for. -/
  | noHeaders (key : Text)
  /-- A table of headers has no such file. -/
  | noSuchFile
  /-- A table of headers has the file and not the key. -/
  | noSuchKey (key : Text)
  | fits (fault : Fits.Fault)
  deriving DecidableEq, Repr

/-- What can go wrong when a document is read or a value is substituted. -/
inductive Error where
  /-- The structure of a text is broken, at a line or at its end; `stack` names the sections open
  there, outermost first. -/
  | structural (file : Text) (line : Option Nat) (fault : StructuralFault) (stack : List Text)
  /-- A required key is not there. -/
  | lookup (key : Text)
  | value (input : Text) (fault : ValueFault)
  /-- A text did not settle within the limit. -/
  | nonTermination (input : Text) (limit : Nat)
  /-- One result was asked for and there are `count`. -/
  | ambiguous (input : Text) (count : Nat)
  | unknownFunction (name : Text)
  /-- A function reports that it failed, in its own words. -/
  | function (name message : Text)
  | header (path : Text) (fault : HeaderFault)
  | read (path : Text) (failure : ReadFailure)
  deriving DecidableEq, Repr

/-- The text of a structural fault. -/
def StructuralFault.message : StructuralFault → Text
  | sameName key => "found child section with same name (".toList ++ key ++ ")".toList
  | nameTaken key => "section <".toList ++ key ++ "> conflicts with an existing value".toList
  | closeOutside key => "Got close for ".toList ++ key ++ " but no section is open.".toList
  | closeMismatch key expected =>
    "Invalid or missing section close. Got close for ".toList ++ key
      ++ ". Expecting close for ".toList ++ expected ++ ".".toList
  | unclosed =>
    "missing section closing line. Check that all sections have closing line.".toList
  | sectionLost => "open section was replaced by a value from an include".toList
  | includeTooDeep limit target =>
    "includes nested more than ".toList ++ Text.ofNat limit ++ " deep (".toList ++ target
      ++ ")".toList
  | invalidCall body => "Invalid inclfunc ".toList ++ body

/-- The text of a fault of a value. -/
def ValueFault.message : ValueFault → Text
  | isSection => "variable refers to a section, not a value".toList
  | invalidWidth width => "invalid width '".toList ++ width ++ "'".toList
  | notInteger width =>
    "cannot format as ".toList ++ Text.ofNat width ++ "-digit integer".toList
  | bindingsTaken => "current is a value, not a section".toList
  | noSearch message => message

/-- The text of a failed header lookup in the file at `path`. -/
def HeaderFault.message (path : Text) : HeaderFault → Text
  | noHeaders key => "no header reader configured (key ".toList ++ key ++ ")".toList
  | noSuchFile => "no such file".toList
  | noSuchKey key => "keyword ".toList ++ key ++ " not found".toList
  | fits fault => fault.message path

/-- The text of an error. -/
def Error.message : Error → Text
  | structural file line fault stack =>
    "File ".toList ++ file
      ++ (match line with
        | some n => " Line ".toList ++ Text.ofNat n
        | none => [])
      ++ " - ".toList ++ fault.message
      ++ (if stack.isEmpty then []
        else " (open sections: ".toList ++ Text.joinWith " > ".toList stack ++ ")".toList)
  | lookup key => "Could not find value for ".toList ++ key
  | value input fault => "Invalid value '".toList ++ input ++ "': ".toList ++ fault.message
  | nonTermination input limit =>
    "Aborting after ".toList ++ Text.ofNat limit
      ++ " iterations, probable circular reference in '".toList ++ input ++ "'".toList
  | ambiguous input count =>
    "Expected a single value but '".toList ++ input ++ "' expanded to ".toList
      ++ Text.ofNat count ++ " values".toList
  | unknownFunction name => "Unknown function: ".toList ++ name
  | function name message => "Function '".toList ++ name ++ "' failed: ".toList ++ message
  | header path fault =>
    "Header lookup in ".toList ++ path ++ " failed: ".toList ++ fault.message path
  | read path failure => "Could not read ".toList ++ path ++ ": ".toList ++ failure.message

end WorkflowControl
