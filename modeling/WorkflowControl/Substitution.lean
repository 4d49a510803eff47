import WorkflowControl.Substitution.Unroll

/-!
Substitution: every token of a text is replaced by what it stands for, until no token is left.

Header values, optional and required variables are settled together, then calls of functions on
their own, since a call may bring in any text. In the end the loop markers are unrolled.

A value that has tokens itself is settled by a substitution of its own where a token asks for it
as an integer or a list. The depth of such substitutions is bounded by the limit as well, and it
is what the recursion is on.
-/

namespace WorkflowControl

namespace Substitution

namespace Context

/-- The sweeps over everything but calls, and whether their variables are required. -/
def variableSweeps : List (TokenKind × Bool) :=
  [(.header, true), (.optional, false), (.required, true)]

/-- The sweep over calls. -/
def callSweeps : List (TokenKind × Bool) := [(.function, true)]

/-- Substitutes the tokens of a text: variables first, then calls, then the loop markers. -/
def substitute (ctx : Context) (text : Text) : Except Error Substitution.Result := do
  let settled ← ctx.settleSweeps variableSweeps ⟨text, []⟩
  let called ← ctx.settleSweeps callSweeps settled
  if Token.hasToken .loop called.value then .multi <$> ctx.unroll called
  else .ok (.single called)

end Context

/-- Settles a value with the substitution `run`, which has to give one result. A value without `$`
is settled. -/
def settleWith (run : Text → Except Error Substitution.Result) (value : Text) : Except Error Text :=
  if value.contains '$' then do Result.one value (← run value) else .ok value

/-- Substitution with a budget for the depth to which values are settled within tokens. Within a
token no variable becomes a loop marker. -/
def within (source : Source) (services : Services) :
    Nat → Bool → Text → Except Error Substitution.Result
  | 0, _, text => .error (.nonTermination text services.limit)
  | depth + 1, expand, text =>
    let settle := settleWith (within source services depth false)
    Context.substitute { source, services, expand, settle } text

/-- What the tokens of an outermost substitution are resolved with. -/
def Context.outermost (source : Source) (services : Services) (expand : Bool) : Context where
  source := source
  services := services
  expand := expand
  settle := settleWith (within source services services.limit false)

@[simp] theorem Context.services_outermost (source : Source) (services : Services) (expand : Bool) :
    (outermost source services expand).services = services := rfl

end Substitution

/-- Substitutes every token of a text. With `expand`, variables that are lists are expanded into
branches. -/
def substitute (source : Source) (services : Services) (expand : Bool) (text : Text) :
    Except Error Substitution.Result :=
  Substitution.within source services (services.limit + 1) expand text

/-- Substitutes every token of a text and expects one result. -/
def substituteOne (source : Source) (services : Services) (expand : Bool) (text : Text) :
    Except Error Text := do
  Substitution.Result.one text (← substitute source services expand text)

/-- An outermost substitution settles values with one level of depth less than it has itself. -/
theorem substitute_eq_outermost (source : Source) (services : Services) (expand : Bool)
    (text : Text) :
    substitute source services expand text
      = (Substitution.Context.outermost source services expand).substitute text := rfl

end WorkflowControl
