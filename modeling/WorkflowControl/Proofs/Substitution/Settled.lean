import WorkflowControl.Proofs.Substitution.VariableText

/-!
What is left when the rounds of sweeps are over. The flag of a round does not tell whether optional
variables without a value were taken out, and a text may close up into a new token where one was. The
last round settles it all the same (`exists_lastRound`): it had no header token to begin with, and
nothing was put in after its sweep over the optional variables, so neither an optional nor a required
variable is left. A header token may be, if it closed up in that round.

Without functions a call is an error, so the single result of a substitution has no token but those
of headers, and if it has none of them it is its own substitution (`settled_of_single`).
-/

namespace WorkflowControl.Substitution

open Outcome Text Token

namespace Context

variable {ctx : Context} {sweeps : List (TokenKind × Bool)} {branch settled : Branch} {text : Text}

theorem limit_ne_zero_of_settleSweeps (h : ctx.settleSweeps sweeps branch = .ok settled) :
    ctx.services.limit ≠ 0 := by
  intro hzero
  rw [settleSweeps, hzero] at h
  cases h

/-- How the last round over variables goes: it finds no header token and at most takes optional
variables out, and then finds no required one. -/
structure LastRound (ctx : Context) (last settled : Text) : Prop where
  header : first? .header last = none
  optional : ctx.sweep .optional false last = .ok ⟨true, settled, []⟩
  required : first? .required settled = none

theorem exists_lastRound (h : ctx.settleSweeps variableSweeps branch = .ok settled) :
    ∃ last, ctx.LastRound last settled.value := by
  obtain ⟨-, last, -, hround⟩ :=
    settleFrom_keeps (P := fun _ => True) (fun _ _ _ _ => trivial) trivial h
  obtain ⟨headers, hheaders, hround⟩ := round_cons_eq_ok hround
  obtain ⟨optionals, hoptionals, hround⟩ := round_cons_eq_ok hround
  obtain ⟨requireds, hrequireds, hround⟩ := round_cons_eq_ok hround
  obtain ⟨hdone, hvalue, -⟩ := Progress.mk.inj (Except.ok.inj hround)
  simp only [Bool.true_and, Bool.and_eq_true] at hdone
  have hlast : headers.text = last.value := text_of_sweep_done hheaders hdone.1.1
  have hsettled : requireds.text = optionals.text := text_of_sweep_done hrequireds hdone.2
  refine ⟨last.value, ?_, ?_, ?_⟩
  · rw [← hlast]
    exact first?_of_sweep hheaders
  · have hoptional : optionals = ⟨true, settled.value, []⟩ := by
      rw [← hvalue, hsettled, ← hdone.1.2, ← keep_of_sweep_done hoptionals hdone.1.2]
    rw [← hlast, ← hoptional]
    exact hoptionals
  · rw [← hvalue]
    exact first?_of_sweep hrequireds

/-! ## Without functions -/

section

variable (hfunctions : ∀ name, ctx.services.functions.textFunction? name = none)
include hfunctions

/-- No call has a value. -/
theorem resolve_function_ne_ok (name : Text) (found : Option Text) :
    ctx.resolve .function name ≠ .ok found := by
  intro hfound
  obtain ⟨value, hvalue, -⟩ := map_eq_ok_iff.mp hfound
  rw [callResult, FunctionTable.callText, hfunctions] at hvalue
  cases hvalue

/-- A sweep over calls ends only if there are none. -/
theorem sweep_function_eq_ok {required : Bool} {swept : Progress}
    (hok : ctx.sweep .function required text = .ok swept) :
    swept = { text := text } ∧ first? .function text = none := by
  obtain ⟨heq, hnone⟩ := sweepFrom_keeps (P := fun s => s = { text := text })
    (fun content s s' _ _ hstep => by
      rcases replaceToken_eq_ok hstep with ⟨_, _, _, hvalue, _, _⟩ | ⟨hvalue, _, _⟩
      · exact absurd hvalue (resolve_function_ne_ok hfunctions _ _)
      · exact absurd hvalue (resolve_function_ne_ok hfunctions _ _))
    rfl hok
  rw [heq] at hnone
  exact ⟨heq, hnone⟩

theorem settleSweeps_calls_eq_ok (h : ctx.settleSweeps callSweeps branch = .ok settled) :
    settled = branch ∧ first? .function branch.value = none := by
  have hround : ∀ (b : Branch) (s : Progress),
      ctx.round ⟨true, b.value, b.keep⟩ callSweeps = .ok s →
        s = ⟨true, b.value, b.keep⟩ ∧ first? .function b.value = none := by
    intro b s hs
    obtain ⟨swept, hswept, hs⟩ := round_cons_eq_ok hs
    obtain ⟨rfl, hnone⟩ := sweep_function_eq_ok hfunctions hswept
    exact ⟨(Except.ok.inj hs).symm, hnone⟩
  obtain ⟨heq, last, rfl, hlast⟩ := settleFrom_keeps (P := fun b => b = branch)
    (fun b s hb hs => by
      obtain ⟨rfl, -⟩ := hround b s hs
      exact hb) rfl h
  exact ⟨heq, (hround last _ hlast).2⟩

/-- Without functions the text is settled when its variables are. -/
theorem settleText_eq_ok (h : ctx.settleText text = .ok settled) :
    ctx.settleSweeps variableSweeps ⟨text, []⟩ = .ok settled
      ∧ first? .function settled.value = none := by
  obtain ⟨varied, hvaried, hcalls⟩ := bind_eq_ok_iff.mp h
  obtain ⟨rfl, hnone⟩ := settleSweeps_calls_eq_ok hfunctions hcalls
  exact ⟨hvaried, hnone⟩

end

/-- A result is single if no marker is left to unroll. -/
theorem substitute_eq_single {b : Branch} (h : ctx.substitute text = .ok (.single b)) :
    ctx.settleText text = .ok b ∧ first? .loop b.value = none := by
  unfold Context.substitute at h
  obtain ⟨varied, hvaried, h⟩ := bind_eq_ok_iff.mp h
  obtain ⟨called, hcalled, h⟩ := bind_eq_ok_iff.mp h
  split at h
  · obtain ⟨branches, -, hbranches⟩ := map_eq_ok_iff.mp h
    cases hbranches
  · rename_i hmarker
    obtain rfl := Result.single.inj (Except.ok.inj h)
    exact ⟨bind_eq_ok_iff.mpr ⟨varied, hvaried, hcalled⟩,
      hasToken_eq_false_iff.mp (eq_false_of_ne_true hmarker)⟩

/-- Without functions a single result has no token but those of headers. -/
theorem first?_of_substitute_single
    (hfunctions : ∀ name, ctx.services.functions.textFunction? name = none) {b : Branch}
    (h : ctx.substitute text = .ok (.single b)) {kind : TokenKind} (hkind : kind ≠ .header) :
    first? kind b.value = none := by
  obtain ⟨hsettled, hloop⟩ := substitute_eq_single h
  obtain ⟨hvariables, hfunction⟩ := settleText_eq_ok hfunctions hsettled
  obtain ⟨last, hlast⟩ := exists_lastRound hvariables
  cases kind with
  | required => exact hlast.required
  | optional => exact first?_of_sweep hlast.optional
  | header => exact absurd rfl hkind
  | function => exact hfunction
  | loop => exact hloop

end Context

variable {source : Source} {services : Services} {expand : Bool} {text : Text} {b : Branch}

/-- Without functions a single result has no variable, call or marker left, whatever the values are.
If it has no header token either, it is substituted by itself. -/
theorem settled_of_single (hfunctions : ∀ name, services.functions.textFunction? name = none)
    (h : substitute source services expand text = .ok (.single b)) :
    (∀ kind, kind ≠ .header → hasToken kind b.value = false)
      ∧ (hasToken .header b.value = false →
        substitute source services expand b.value = .ok (.single ⟨b.value, []⟩)) := by
  rw [substitute_eq_outermost] at h ⊢
  have hnone : ∀ kind, kind ≠ .header → first? kind b.value = none :=
    fun kind hkind => Context.first?_of_substitute_single hfunctions h hkind
  refine ⟨fun kind hkind => hasToken_eq_false_iff.mpr (hnone kind hkind), fun hheader => ?_⟩
  refine Context.substitute_of_none (fun kind => ?_) ?_
  · by_cases hkind : kind = .header
    · rw [hkind]
      exact hasToken_eq_false_iff.mp hheader
    · exact hnone kind hkind
  · obtain ⟨hsettled, -⟩ := Context.substitute_eq_single h
    obtain ⟨hvariables, -⟩ := Context.settleText_eq_ok hfunctions hsettled
    exact Context.limit_ne_zero_of_settleSweeps hvariables

/-- Signs that do not make up a token, a variable that closes up where a missing one was taken out,
and one with a width. -/
theorem settled_of_single_signs :
    let source : Source := .ofEntries [(['n'], ['5']), (['v'], ['$', 'a', '{', '}'])]
    let text : Text :=
      ['$', '$', 'o', 'p', 't', '{', 'm', '}', '{', 'v', '}', '$', '{', 'n', ':', '3', '}']
    let value : Text := ['$', 'a', '{', '}', '0', '0', '5']
    let keep : Entries Text := [(['v'], ['$', 'a', '{', '}']), (['n'], ['5'])]
    substitute source {} false text = .ok (.single ⟨value, keep⟩)
      ∧ (∀ kind, kind ≠ .header → hasToken kind value = false)
      ∧ substitute source {} false value = .ok (.single ⟨value, []⟩) := by
  intro source text value keep
  have hok : substitute source {} false text = .ok (.single ⟨value, keep⟩) := rfl
  obtain ⟨hnone, hagain⟩ := settled_of_single (fun _ => rfl) hok
  exact ⟨hok, hnone, hagain (by decide)⟩

end WorkflowControl.Substitution
