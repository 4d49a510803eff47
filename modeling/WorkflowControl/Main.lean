import WorkflowControl.Command.Arguments

/-!
The program: runs one command on a document file.

The command itself reads no files. It is run on the files loaded so far, and where it comes upon a
file that is not loaded yet, the file is loaded and the command is run again. Each round loads one
more of the files that the document refers to.
-/

namespace WorkflowControl.Program

/-- Whether an error code is the one of number `n`; some calls give it negated. -/
def isCode (n code : UInt32) : Bool := code == n || code == 0 - n

/-- Why the operating system refused a file. -/
def failureOf : IO.Error → ReadFailure
  | .noFileOrDirectory .. | .noSuchThing .. => .notFound
  | .inappropriateType _ code _ => if isCode 20 code then .notDirectory else .isDirectory
  | .invalidArgument _ code _ => if isCode 36 code then .nameTooLong else .invalidOffset
  | _ => .notFound

/-- Reads a file whole. -/
def load (path : Text) : IO (Except ReadFailure (List UInt8)) := do
  if path.contains '\x00' then return .error .nulInPath
  try
    let bytes ← IO.FS.readBinFile (String.ofList path)
    return .ok bytes.toList
  catch e => return .error (failureOf e)

/-- The variables of the environment of the process. -/
def environment : IO Environment := do
  match ← load "/proc/self/environ".toList with
  | .error _ => return {}
  | .ok bytes =>
    let lines := (Text.splitOn '\x00' (Text.decodeLossy bytes)).filter fun l => l.contains '='
    return { bindings := lines.map fun l => (l.upTo '=', (l.after? '=').getD []) }

/-- The file that an error asks to be loaded. -/
def missingFile? : Error → Option Text
  | .read path .notLoaded => some path
  | .header path (.fits (.unreadable .notLoaded)) => some path
  | _ => none

/-- The file that a failed command asks to be loaded. -/
def missingFileOf? : CommandError → Option Text
  | .load _ cause | .get _ cause | .expand _ cause => missingFile? cause
  | .invalidBinding _ => none

/-- The occurrences of a token are found by comparing characters here, so no token is refused. -/
def searchFault? : Text → Option Text := fun _ => none

/-- Runs an invocation, loading the files that it asks for. -/
partial def report (env : Environment) (call : Invocation)
    (loaded : Entries (Except ReadFailure (List UInt8))) : IO Report := do
  let read : ReadBytes := fun path => (loaded.get? path).getD (.error .notLoaded)
  let result := call.command.run env read searchFault? call.limit call.file
  match result.outcome with
  | .ok _ => return result
  | .error e =>
    match missingFileOf? e with
    | none => return result
    | some path => report env call (loaded.put path (← load path))

/-- A warning on a line of its own. -/
def warningLine : Warning → Text
  | w@(.unmatchedLine file line text) =>
    file ++ ":".toList ++ Text.ofNat line ++ ": ".toList ++ w.message ++ ": ".toList ++ text
  | w@(.missingArgument file line function argument) =>
    file ++ ":".toList ++ Text.ofNat line ++ ": ".toList ++ w.message ++ ": ".toList ++ function
      ++ "(".toList ++ argument ++ ")".toList

end WorkflowControl.Program

open WorkflowControl in
/-- Runs the command that the arguments ask for: its text goes to the standard output, warnings
and errors go to the standard error, and a failure gives status 1, a wrong call status 2. -/
def main (args : List String) : IO UInt32 := do
  match Invocation.ofWords? (args.map String.toList) with
  | none =>
    IO.eprint (String.ofList Invocation.usage)
    return 2
  | some call =>
    let result ← Program.report (← Program.environment) call []
    for w in result.warnings do
      IO.eprintln (String.ofList (Program.warningLine w))
    match result.outcome with
    | .ok text =>
      IO.print (String.ofList text)
      if call.command matches .check then IO.println ""
      return 0
    | .error e =>
      IO.eprintln (String.ofList ("Error: ".toList ++ e.message))
      return 1
