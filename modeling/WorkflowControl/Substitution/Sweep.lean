import WorkflowControl.ItemList
import WorkflowControl.Substitution.Branch
import WorkflowControl.Substitution.Source
import WorkflowControl.Substitution.Width
import WorkflowControl.Token

/-!
Sweeps over the tokens of one kind, and their repetition.

A sweep takes the first token of its kind, looks up what it stands for and puts that in at all its
occurrences, until the text has no token of the kind; what a replacement brings in is swept as
well. A round runs several sweeps in turn, and rounds are repeated until one of them resolves
nothing. The number of replacements in a sweep and the number of rounds are bounded by the limit,
and running out of it is an error.

A variable whose value is a list is not put in when lists are to be expanded: it becomes a loop
marker.
-/

namespace WorkflowControl.Substitution

/-- How far a sweep has come: whether no token was resolved to a value, the text, and the values
chosen for names on the way. -/
structure Progress where
  done : Bool := true
  text : Text
  keep : Entries Text := []

/-- The header values that a content asks for, joined with commas: its first item names the file
and the others name the keys. -/
def headerValues (services : Services) (content : Text) : Except Error Text :=
  let items := ItemList.split content ','
  (services.headers.read (items.head?.getD []) items.tail).map (Text.joinWith [','])

/-- The result of the call in a content: its first item names the function and the others are the
arguments. -/
def callResult (services : Services) (content : Text) : Except Error Text :=
  let items := ItemList.split content ','
  services.functions.callText (items.head?.getD []) items.tail

/-- Fails for a token that no search can be built for. -/
def checkSearch (services : Services) (kind : TokenKind) (content : Text) : Except Error Unit :=
  let token := kind.token content
  match services.searchFault? token with
  | none => .ok ()
  | some message => .error (.value token (.noSearch message))

/-- The text with `value` in place of every token of the kind with the content, if a search can be
built for the token. -/
def replaceAll (services : Services) (kind : TokenKind) (content value text : Text) :
    Except Error Text := do
  checkSearch services kind content
  return Token.replaceAll kind content value text

/-- What the tokens of one substitution are resolved with. -/
structure Context where
  source : Source
  services : Services
  /-- Whether variables that are lists become loop markers. -/
  expand : Bool
  /-- Settles a value that may have tokens itself. -/
  settle : Text → Except Error Text

namespace Context

/-- What the name of a token stands for. A header and a call have a value or fail. -/
def resolve (ctx : Context) (kind : TokenKind) (name : Text) : Except Error (Option Text) :=
  match kind with
  | .header => (headerValues ctx.services name).map some
  | .function => (callResult ctx.services name).map some
  | _ => ctx.source name

/-- Whether a variable with this value is left to the unrolling. -/
def defers (ctx : Context) (kind : TokenKind) (value : Text) : Bool :=
  (kind == .required || kind == .optional) && ctx.expand && ItemList.isList value

/-- What is put in for the token of a content that resolved to `value`, and the values kept from
then on. With a width the value is settled and padded, and its settled form is the one to keep. -/
def replacement (ctx : Context) (kind : TokenKind) (content value : Text) (keep : Entries Text) :
    Except Error (Text × Entries Text) :=
  let (name, width?) := Token.nameAndWidth content
  if ctx.defers kind value then .ok (TokenKind.loop.token content, keep)
  else
    match width? with
    | none => .ok (value, keep.put name value)
    | some w => do
      let width ← width content w
      let settled ← ctx.settle value
      let digits ← padded width settled
      .ok (digits, keep.put name settled)

/-- Replaces the token of a content by what it stands for. Without a value it is an error if it is
required, and empty if not. -/
def replaceToken (ctx : Context) (kind : TokenKind) (required : Bool) (content : Text)
    (s : Progress) : Except Error Progress := do
  let name := (Token.nameAndWidth content).1
  match ← ctx.resolve kind name with
  | some value => do
    let (put, keep) ← ctx.replacement kind content value s.keep
    let text ← replaceAll ctx.services kind content put s.text
    .ok ⟨false, text, keep⟩
  | none =>
    if required then .error (.lookup name)
    else do
      let text ← replaceAll ctx.services kind content [] s.text
      .ok { s with text := text }

/-- Replaces the tokens of a kind, as many of them in turn as the budget allows. -/
def sweepFrom (ctx : Context) (kind : TokenKind) (required : Bool) (input : Text) (budget : Nat)
    (s : Progress) : Except Error Progress :=
  match Token.first? kind s.text with
  | none => .ok s
  | some content =>
    match budget with
    | 0 => .error (.nonTermination input ctx.services.limit)
    | budget + 1 => do
      let next ← ctx.replaceToken kind required content s
      ctx.sweepFrom kind required input budget next

/-- Replaces every token of a kind. -/
def sweep (ctx : Context) (kind : TokenKind) (required : Bool) (text : Text) :
    Except Error Progress :=
  ctx.sweepFrom kind required text ctx.services.limit { text := text }

/-- Runs the sweeps over a text in turn, after `s`. -/
def round (ctx : Context) (s : Progress) : List (TokenKind × Bool) → Except Error Progress
  | [] => .ok s
  | (kind, required) :: rest => do
    let swept ← ctx.sweep kind required s.text
    ctx.round ⟨s.done && swept.done, swept.text, s.keep.putAll swept.keep⟩ rest

/-- Repeats the round of sweeps until one resolves nothing, as often as the budget allows. -/
def settleFrom (ctx : Context) (sweeps : List (TokenKind × Bool)) (input : Text) :
    Nat → Branch → Except Error Branch
  | 0, _ => .error (.nonTermination input ctx.services.limit)
  | budget + 1, branch => do
    let s ← ctx.round ⟨true, branch.value, branch.keep⟩ sweeps
    if s.done then .ok ⟨s.text, s.keep⟩
    else ctx.settleFrom sweeps input budget ⟨s.text, s.keep⟩

/-- Repeats the round of sweeps until one resolves nothing. -/
def settleSweeps (ctx : Context) (sweeps : List (TokenKind × Bool)) (branch : Branch) :
    Except Error Branch :=
  ctx.settleFrom sweeps branch.value ctx.services.limit branch

end Context

end WorkflowControl.Substitution
