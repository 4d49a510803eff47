import WorkflowControl.Text.Basic

/-!
Environment variables, and their expansion in a path. A leading `~` stands for the home directory,
and `$NAME` and `${NAME}` stand for variables. What is not defined is left as it is written, and a
value that was put in is not looked at again.
-/

namespace WorkflowControl

/-- The variables of the environment, and the home directory of the account, which counts where
the variables do not name one. -/
structure Environment where
  bindings : List (Text × Text) := []
  accountHome : Option Text := none

namespace Environment

/-- The value of a variable: what follows `name=` in the first line `NAME=VALUE` of the
environment that starts so. No variable has a NUL character in its name. -/
def value? (env : Environment) (name : Text) : Option Text :=
  if name.contains '\x00' then none
  else env.bindings.findSome? fun v => Text.behind? (name ++ ['=']) (v.1 ++ '=' :: v.2)

/-- The home directory: the variable `HOME` unless it is empty, or else that of the account. -/
def home? (env : Environment) : Option Text :=
  match env.value? ['H', 'O', 'M', 'E'] with
  | some (c :: cs) => some (c :: cs)
  | _ => env.accountHome

/-- The path with a leading `~` put as the home directory, if the `~` is a whole name. -/
def expandHome (env : Environment) (path : Text) : Text :=
  match path with
  | '~' :: rest =>
    if rest.isEmpty || rest.head? == some '/' then
      match env.home? with
      | some home => home ++ rest
      | none => path
    else path
  | _ => path

/-- Whether `c` may stand in a variable name that has no braces. -/
def isNameChar (c : Char) : Bool :=
  ('a' ≤ c && c ≤ 'z') || ('A' ≤ c && c ≤ 'Z') || ('0' ≤ c && c ≤ '9') || c == '_'

/-- The name of the reference that a `$` with `rest` behind it begins, and the number of
characters of `rest` that belong to the reference. Without its closing brace a `{` begins none. -/
def reference (rest : Text) : Text × Nat :=
  match rest with
  | '{' :: more =>
    if more.contains '}' then
      let name := more.takeWhile (· != '}')
      (name, name.length + 2)
    else ([], 0)
  | _ =>
    let name := rest.takeWhile isNameChar
    (name, name.length)

/-- Expands the references behind the first `skip` characters, which are dropped. -/
def expandFrom (env : Environment) : Nat → Text → Text
  | _, [] => []
  | skip + 1, _ :: cs => env.expandFrom skip cs
  | 0, c :: cs =>
    if c = '$' then
      let (name, size) := reference cs
      match if name.isEmpty then none else env.value? name with
      | some value => value ++ env.expandFrom size cs
      | none => '$' :: (cs.take size ++ env.expandFrom size cs)
    else c :: env.expandFrom 0 cs

/-- Puts the values of the defined variables for the references to them. -/
def expandVariables (env : Environment) (text : Text) : Text := env.expandFrom 0 text

/-- The path that `path` stands for in the environment. -/
def expandPath (env : Environment) (path : Text) : Text := env.expandVariables (env.expandHome path)

end Environment

end WorkflowControl
