import WorkflowControl.Proofs.Substitution.Sweep

/-!
Runs of a sweep, without regard to the limit. A run takes the first token of the text and replaces
it, as long as there is one and it can be replaced (`Runs`). A sweep within the limit does what its
run does, and a sweep that needs more replacements than the limit does not terminate
(`Runs.sweepFrom_eq`). A sweep that does not come to an end meets any number of tokens
(`exists_runs_or_meets`).
-/

namespace WorkflowControl.Substitution.Context

variable {ctx : Context} {kind : TokenKind} {required : Bool} {input : Text}

/-- The contents of the tokens that a sweep takes in turn, and how it ends: with a text that has no
token of the kind, or with the error of the last token. -/
inductive Runs (ctx : Context) (kind : TokenKind) (required : Bool) :
    List Text → Progress → Except Error Progress → Prop
  | settled {s : Progress} (hnone : Token.first? kind s.text = none) :
      Runs ctx kind required [] s (.ok s)
  | refused {content : Text} {s : Progress} {e : Error}
      (hfirst : Token.first? kind s.text = some content)
      (herror : ctx.replaceToken kind required content s = .error e) :
      Runs ctx kind required [content] s (.error e)
  | replaced {content : Text} {contents : List Text} {s next : Progress}
      {outcome : Except Error Progress}
      (hfirst : Token.first? kind s.text = some content)
      (hnext : ctx.replaceToken kind required content s = .ok next)
      (hrest : Runs ctx kind required contents next outcome) :
      Runs ctx kind required (content :: contents) s outcome

/-- The contents of some tokens that a sweep takes in turn, from a text on. -/
inductive Meets (ctx : Context) (kind : TokenKind) (required : Bool) :
    List Text → Progress → Prop
  | nothing {s : Progress} : Meets ctx kind required [] s
  | first {content : Text} {s : Progress} (hfirst : Token.first? kind s.text = some content) :
      Meets ctx kind required [content] s
  | replaced {content : Text} {contents : List Text} {s next : Progress}
      (hfirst : Token.first? kind s.text = some content)
      (hnext : ctx.replaceToken kind required content s = .ok next)
      (hrest : Meets ctx kind required contents next) :
      Meets ctx kind required (content :: contents) s

variable {contents : List Text} {s : Progress} {outcome : Except Error Progress}

theorem Runs.meets (h : Runs ctx kind required contents s outcome) :
    Meets ctx kind required contents s := by
  induction h with
  | settled _ => exact .nothing
  | refused hfirst _ => exact .first hfirst
  | replaced hfirst hnext _ ih => exact .replaced hfirst hnext ih

/-- A sweep does what its run does if the limit is as large as the run is long, and it does not
terminate otherwise. -/
theorem Runs.sweepFrom_eq (h : Runs ctx kind required contents s outcome) (budget : Nat) :
    ctx.sweepFrom kind required input budget s
      = if contents.length ≤ budget then outcome
        else .error (.nonTermination input ctx.services.limit) := by
  induction h generalizing budget with
  | settled hnone =>
    have hlength : ([] : List Text).length ≤ budget := Nat.zero_le budget
    rw [if_pos hlength, sweepFrom.eq_def, hnone]
  | @refused content s e hfirst herror =>
    rw [sweepFrom.eq_def, hfirst]
    cases budget with
    | zero => rfl
    | succ budget =>
      rw [if_pos (by simp)]
      dsimp only
      rw [herror]
      rfl
  | @replaced content contents s next outcome hfirst hnext _ ih =>
    rw [sweepFrom.eq_def, hfirst]
    cases budget with
    | zero => rfl
    | succ budget =>
      dsimp only
      rw [hnext]
      show ctx.sweepFrom kind required input budget next = _
      rw [ih]
      simp only [List.length_cons, Nat.add_le_add_iff_right]

/-- Within any number of replacements a sweep comes to an end, or it meets one token more. -/
theorem exists_runs_or_meets (ctx : Context) (kind : TokenKind) (required : Bool) (budget : Nat)
    (s : Progress) :
    (∃ contents outcome, contents.length ≤ budget ∧ Runs ctx kind required contents s outcome)
      ∨ ∃ contents, contents.length = budget + 1 ∧ Meets ctx kind required contents s := by
  induction budget generalizing s with
  | zero =>
    cases hfirst : Token.first? kind s.text with
    | none => exact .inl ⟨[], _, Nat.le_refl 0, .settled hfirst⟩
    | some content => exact .inr ⟨[content], rfl, .first hfirst⟩
  | succ budget ih =>
    cases hfirst : Token.first? kind s.text with
    | none => exact .inl ⟨[], _, Nat.zero_le _, .settled hfirst⟩
    | some content =>
      cases hnext : ctx.replaceToken kind required content s with
      | error e => exact .inl ⟨[content], _, by simp, .refused hfirst hnext⟩
      | ok next =>
        rcases ih next with ⟨contents, outcome, hlength, hruns⟩ | ⟨contents, hlength, hmeets⟩
        · exact .inl ⟨content :: contents, outcome, by simpa using hlength,
            .replaced hfirst hnext hruns⟩
        · exact .inr ⟨content :: contents, by simpa using hlength, .replaced hfirst hnext hmeets⟩

/-- Two contexts run alike if they replace the tokens of the run alike. -/
theorem Runs.congr {other : Context} (h : Runs ctx kind required contents s outcome)
    (heq : ∀ content ∈ contents, ∀ s,
      other.replaceToken kind required content s = ctx.replaceToken kind required content s) :
    Runs other kind required contents s outcome := by
  induction h with
  | settled hnone => exact .settled hnone
  | refused hfirst herror => exact .refused hfirst ((heq _ (by simp) _).trans herror)
  | replaced hfirst hnext _ ih =>
    exact .replaced hfirst ((heq _ (by simp) _).trans hnext)
      (ih fun content hcontent => heq content (List.mem_cons_of_mem _ hcontent))

end WorkflowControl.Substitution.Context
