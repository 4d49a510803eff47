import WorkflowControl.Error

/-!
The outcome of reading a text: a value or an error, and the warnings that came up on the way. An
error does not take the warnings before it back.
-/

namespace WorkflowControl

/-- What is reported about a text and does not stop its reading. -/
inductive Warning where
  /-- A line has none of the forms of a line. -/
  | unmatchedLine (file : Text) (line : Nat) (text : Text)
  /-- An argument of a function directive names a key that is not there. -/
  | missingArgument (file : Text) (line : Nat) (function argument : Text)
  deriving DecidableEq, Repr

/-- The text of a warning, without what it is about. -/
def Warning.message : Warning → Text
  | unmatchedLine _ _ _ => "Ignoring line (did not match patterns)".toList
  | missingArgument _ _ _ _ => "inclfunc argument not found".toList

/-- Warnings in order, and the outcome behind them. -/
structure Reading (α : Type) where
  warnings : List Warning := []
  outcome : Except Error α

namespace Reading

/-- The reading without warnings that has an outcome. -/
def ofExcept {α : Type} (outcome : Except Error α) : Reading α := ⟨[], outcome⟩

/-- The reading that fails. -/
def fail {α : Type} (e : Error) : Reading α := ⟨[], .error e⟩

/-- The reading that reports a warning. -/
def warn (w : Warning) : Reading Unit := ⟨[w], .ok ()⟩

/-- Goes on with `next`, unless the reading failed. -/
def andThen {α β : Type} (r : Reading α) (next : α → Reading β) : Reading β :=
  match r.outcome with
  | .error e => ⟨r.warnings, .error e⟩
  | .ok a => ⟨r.warnings ++ (next a).warnings, (next a).outcome⟩

instance : Monad Reading where
  pure a := ⟨[], .ok a⟩
  bind := andThen

theorem pure_andThen {α β : Type} (a : α) (next : α → Reading β) :
    andThen (pure a) next = next a := rfl

theorem andThen_assoc {α β γ : Type} (r : Reading α) (f : α → Reading β) (g : β → Reading γ) :
    andThen (andThen r f) g = andThen r fun a => andThen (f a) g := by
  obtain ⟨ws, outcome⟩ := r
  cases outcome with
  | error e => rfl
  | ok a =>
    simp only [andThen]
    cases h : (f a).outcome <;> simp

end Reading

end WorkflowControl
