import WorkflowControl.Command.Json
import WorkflowControl.Document.Print
import WorkflowControl.Document.Reader
import WorkflowControl.Document.Variables
import WorkflowControl.Fits.File

/-!
The commands on a document file: count what it holds, print it in canonical form, look up a key,
substitute a text, list the variables. A command gives the text to print, or an error whose
message names what failed and every cause of it.
-/

namespace WorkflowControl

/-- What to do with a document file. -/
inductive Command where
  /-- Report the number of sections and keys. -/
  | check
  /-- Print the document, sorted or not, with so many blanks for each level. -/
  | format (sort : Bool) (indent : Nat)
  /-- Print the value of a key under bindings `KEY=VALUE` and a comma-separated search order; `raw`
  leaves its tokens as they are. -/
  | get (key : Text) (bindings : List Text) (searchOrder : Option Text) (raw : Bool)
  /-- Print a text with its tokens substituted, as lines or as JSON. -/
  | expand (text : Text) (lists : Bool) (bindings : List Text) (json : Bool)
  /-- Print the names of the variables. -/
  | listVariables

/-- Why a command failed. -/
inductive CommandError where
  | load (file : Text) (cause : Error)
  | get (key : Text) (cause : Error)
  | expand (text : Text) (cause : Error)
  /-- A binding has no `=` in it. -/
  | invalidBinding (binding : Text)
  deriving DecidableEq, Repr

/-- An error with its causes, each behind a colon. The failure to read a file is a cause of its
own. -/
def Error.chain (e : Error) : Text :=
  match e with
  | .read _ failure => e.message ++ [':', ' '] ++ failure.message
  | _ => e.message

/-- The text of a failed command, with all causes. -/
def CommandError.message : CommandError → Text
  | load file cause => "Failed to load ".toList ++ file ++ ": ".toList ++ cause.chain
  | get key cause => "Failed to get ".toList ++ key ++ ": ".toList ++ cause.chain
  | expand text cause => "Failed to expand '".toList ++ text ++ "': ".toList ++ cause.chain
  | invalidBinding binding =>
    "Invalid binding '".toList ++ binding ++ "', expected KEY=VALUE".toList

/-- The warnings of a command, and its text or error. -/
structure Report where
  warnings : List Warning
  outcome : Except CommandError Text

namespace Command

/-- The search with bindings `KEY=VALUE`, cut at the first `=`, blanks around both parts aside. -/
def bindings : List Text → Search → Except CommandError Search
  | [], search => .ok search
  | binding :: rest, search =>
    match binding.after? '=' with
    | none => .error (.invalidBinding binding)
    | some value => bindings rest (search.bind (binding.upTo '=').trim value.trim)

/-- What a command does with the document of a file. -/
def onDocument (command : Command) (services : Services) (file : Text) (doc : Document) :
    Except CommandError Text :=
  match command with
  | .check =>
    .ok (file ++ ": ".toList ++ Text.ofNat doc.root.sectionCount ++ " sections, ".toList
      ++ Text.ofNat doc.root.scalarCount ++ " keys".toList)
  | .format sort indent => .ok (doc.print sort indent)
  | .get key pairs order raw => do
    let doc := match order with
      | some order => doc.withSearchOrder (ItemList.split order ',')
      | none => doc
    let search ← bindings pairs { required := true }
    match ← (doc.resolvedValue? key search services !raw).mapError (.get key) with
    | some (.scalar text) => .ok (Text.unlines [text])
    | some (.list texts) => .ok (Text.unlines texts)
    | some (.subsection s) => .ok (s.print false 4)
    | none => .error (.get key (.lookup key))
  | .expand text lists pairs json => do
    let search ← bindings pairs {}
    let result ←
      (substitute (.ofDocument doc search) services lists text).mapError (.expand text)
    if json then .ok (Json.ofBranches result.branches ++ ['\n'])
    else .ok (Text.unlines result.values)
  | .listVariables => .ok (Text.unlines doc.referenceNames)

/-- Runs a command on the document file at a path. Header values come from FITS files, and there
are no functions. -/
def run (command : Command) (environment : Environment) (read : ReadBytes)
    (searchFault? : Text → Option Text) (limit : Nat) (file : Text) : Report :=
  let services : Services := { limit, headers := Fits.headerSource read, searchFault? }
  let reader : DocumentReader := { services, environment, readInclude := read.text }
  let loaded := reader.readAt read.text file .fold
  { warnings := loaded.warnings
    outcome := (loaded.outcome.mapError (.load file)).bind (command.onDocument services file) }

end Command

end WorkflowControl
