import WorkflowControl.File.Failure

/-!
What can be wrong with a FITS file. The headers of a file are counted from 0.
-/

namespace WorkflowControl.Fits

/-- What can be wrong with a FITS file. -/
inductive Fault where
  | unreadable (failure : ReadFailure)
  | notFits
  /-- The file ends before the `END` card of a header. -/
  | truncated (header : Nat)
  /-- A keyword that the size of the data hangs on is missing (then `value` is empty), is no integer
  or makes the size too large. -/
  | invalidKeyword (header : Nat) (keyword value : Text)
  | missingKeyword (keyword : Text)
  deriving DecidableEq, Repr

/-- The text of a fault of the file at `path`. -/
def Fault.message (path : Text) : Fault → Text
  | unreadable failure => "Could not read ".toList ++ path ++ ": ".toList ++ failure.message
  | notFits => path ++ " is not a FITS file".toList
  | truncated header =>
    "Header ".toList ++ Text.ofNat header ++ " of ".toList ++ path ++ " has no END card".toList
  | invalidKeyword header keyword value =>
    "Invalid ".toList ++ keyword ++ " in header ".toList ++ Text.ofNat header ++ " of ".toList
      ++ path ++ ": '".toList ++ value ++ "'".toList
  | missingKeyword keyword => "Keyword ".toList ++ keyword ++ " not found in ".toList ++ path

end WorkflowControl.Fits
