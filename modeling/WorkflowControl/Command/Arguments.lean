import WorkflowControl.Command.Basic

/-!
The command line: a command word, the file, and what the command takes besides. Options may stand
anywhere behind the command word, as `--name value` or `--name=value`, the short ones as `-c
value` or `-cvalue`; behind `--` everything is an operand. The limit of loops may also stand
before the command.
-/

namespace WorkflowControl

/-- A command on a file with the limit of its loops. -/
structure Invocation where
  command : Command
  file : Text
  limit : Nat

namespace Invocation

/-- How the program is called. -/
def usage : Text :=
  ("Usage: workflow-control [--max-iterations N] COMMAND FILE\n"
    ++ "  check FILE\n"
    ++ "  fmt [--sort] [--indent N] FILE\n"
    ++ "  get [-c KEY=VALUE]... [--search-order LIST] [--raw] FILE KEY\n"
    ++ "  expand [-e] [-c KEY=VALUE]... [--json] FILE TEXT\n"
    ++ "  vars FILE\n").toList

/-- The options of the command line; each command takes some of them. -/
inductive Switch where
  | limit
  | sort
  | indent
  | binding
  | searchOrder
  | raw
  | lists
  | json
  deriving DecidableEq

/-- An option by its long name. -/
def longOption? (name : Text) : Option Switch :=
  match String.ofList name with
  | "max-iterations" => some .limit
  | "sort" => some .sort
  | "indent" => some .indent
  | "current" => some .binding
  | "search-order" => some .searchOrder
  | "raw" => some .raw
  | "expand" => some .lists
  | "json" => some .json
  | _ => none

/-- An option by its short name. -/
def shortOption? : Char → Option Switch
  | 'c' => some .binding
  | 'e' => some .lists
  | _ => none

/-- Whether an option has a value. -/
def Switch.hasValue : Switch → Bool
  | .limit | .indent | .binding | .searchOrder => true
  | .sort | .raw | .lists | .json => false

/-- The words of a command line taken apart: options with their values, and the operands. -/
structure Words where
  options : List (Switch × Text) := []
  operands : List Text := []

/-- The values of an option in order. -/
def Words.values (ws : Words) (o : Switch) : List Text :=
  (ws.options.filter fun p => p.1 == o).map Prod.snd

/-- Whether an option is given. -/
def Words.has (ws : Words) (o : Switch) : Bool := ws.options.any fun p => p.1 == o

/-- The words with one more option. -/
def Words.add (ws : Words) (o : Switch) (value : Text) : Words :=
  { ws with options := ws.options ++ [(o, value)] }

/-- Takes the words apart, where `pending` is an option that still waits for its value; none if an
option is unknown, lacks its value or has one too many. -/
def Words.scan : (pending : Option Switch) → List Text → Words → Option Words
  | none, [], ws => some ws
  | some _, [], _ => none
  | some o, value :: rest, ws => scan none rest (ws.add o value)
  | none, word :: rest, ws =>
    match word with
    | ['-', '-'] => some { ws with operands := ws.operands ++ rest }
    | '-' :: '-' :: name =>
      match longOption? (Text.upTo '=' name), Text.after? '=' name with
      | none, _ => none
      | some o, some value => if o.hasValue then scan none rest (ws.add o value) else none
      | some o, none => if o.hasValue then scan (some o) rest ws else scan none rest (ws.add o [])
    | '-' :: c :: value =>
      match shortOption? c with
      | none => none
      | some o =>
        if o.hasValue then
          match value with
          | [] => scan (some o) rest ws
          | '=' :: value => scan none rest (ws.add o value)
          | value => scan none rest (ws.add o value)
        else if value.isEmpty then scan none rest (ws.add o [])
        else none
    | operand => scan none rest { ws with operands := ws.operands ++ [operand] }

/-- The number that an option gives, at most once, or `default`. -/
def Words.number? (ws : Words) (o : Switch) (default : Nat) : Option Nat :=
  match ws.values o with
  | [] => some default
  | [value] => Text.unsigned? 64 value
  | _ => none

/-- Whether every option given is the limit or one of `allowed`. -/
def Words.onlyHas (ws : Words) (allowed : List Switch) : Bool :=
  ws.options.all fun p => p.1 == .limit || allowed.contains p.1

/-- The invocation that a command line asks for. -/
def ofWords? (words : List Text) : Option Invocation := do
  let ws ← Words.scan none words {}
  let limit ← ws.number? .limit 100
  match ws.operands with
  | [] => none
  | name :: operands =>
    match String.ofList name, operands with
    | "check", [file] => if ws.onlyHas [] then some ⟨.check, file, limit⟩ else none
    | "fmt", [file] =>
      let indent ← ws.number? .indent 4
      if ws.onlyHas [.sort, .indent] then some ⟨.format (ws.has .sort) indent, file, limit⟩
      else none
    | "get", [file, key] =>
      if ws.onlyHas [.binding, .searchOrder, .raw] then
        let command := Command.get key (ws.values .binding) (ws.values .searchOrder).getLast?
          (ws.has .raw)
        some ⟨command, file, limit⟩
      else none
    | "expand", [file, text] =>
      if ws.onlyHas [.lists, .binding, .json] then
        some ⟨.expand text (ws.has .lists) (ws.values .binding) (ws.has .json), file, limit⟩
      else none
    | "vars", [file] => if ws.onlyHas [] then some ⟨.listVariables, file, limit⟩ else none
    | _, _ => none

end Invocation

end WorkflowControl
