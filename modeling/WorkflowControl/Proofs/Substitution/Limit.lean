import WorkflowControl.Document.Value
import WorkflowControl.Proofs.Substitution.Unroll

/-!
Substitution under a greater limit. The limit bounds the replacements of a sweep, the rounds of
sweeps, the unrolling of markers and the depth at which widths settle values. In each of these
places what does not reach the limit goes the same way under a greater one, so a substitution has
the same outcome, unless the outcome is that the limit was reached (`Persists`).

`Persists` passes through sequences of steps, so each function of the substitution takes one lemma.
The recursions that count down are compared with those that start higher.
-/

namespace WorkflowControl

/-- The services with another limit. -/
def Services.withLimit (services : Services) (limit : Nat) : Services :=
  { services with limit := limit }

namespace Substitution

variable {α β : Type}

/-- Whether a computation failed because it reached the limit. -/
def RunsOut (x : Except Error α) : Prop :=
  ∃ input limit, x = .error (.nonTermination input limit)

/-- Whether `y` has the outcome of `x`, unless `x` reached the limit. -/
def Persists (x y : Except Error α) : Prop := ¬ RunsOut x → y = x

namespace Persists

theorem refl (x : Except Error α) : Persists x x := fun _ => rfl

/-- Reaching the limit asks for nothing. -/
theorem out (input : Text) (limit : Nat) (y : Except Error α) :
    Persists (.error (.nonTermination input limit)) y := fun h => absurd ⟨input, limit, rfl⟩ h

theorem bind {x y : Except Error α} {f g : α → Except Error β} (hxy : Persists x y)
    (hfg : ∀ a, Persists (f a) (g a)) : Persists (x >>= f) (y >>= g) := by
  intro h
  cases x with
  | error e =>
    have hx : ¬ RunsOut (.error e : Except Error α) := by
      rintro ⟨input, limit, he⟩
      exact h ⟨input, limit, congrArg Except.error (Except.error.inj he)⟩
    rw [hxy hx]
    rfl
  | ok a =>
    have hx : ¬ RunsOut (.ok a : Except Error α) := fun ⟨_, _, he⟩ => nomatch he
    rw [hxy hx]
    exact hfg a h

theorem map {x y : Except Error α} (hxy : Persists x y) (f : α → β) :
    Persists (f <$> x) (f <$> y) := by
  rw [map_eq_pure_bind, map_eq_pure_bind]
  exact hxy.bind fun a => refl _

theorem mapM {f g : α → Except Error β} (hfg : ∀ a, Persists (f a) (g a)) (xs : List α) :
    Persists (xs.mapM f) (xs.mapM g) := by
  induction xs with
  | nil => exact refl _
  | cons x xs ih =>
    rw [List.mapM_cons, List.mapM_cons]
    exact (hfg x).bind fun y => ih.bind fun ys => refl _

end Persists

namespace Context

/-- The same context under another limit, with another way to settle values. -/
def relaxed (ctx : Context) (limit : Nat) (settle : Text → Except Error Text) : Context :=
  { ctx with services := ctx.services.withLimit limit, settle := settle }

variable {ctx : Context} {limit : Nat} {settle : Text → Except Error Text}

section

variable (hsettle : ∀ value, Persists (ctx.settle value) (settle value))
include hsettle

theorem persists_replacement (kind : TokenKind) (content value : Text) (keep : Entries Text) :
    Persists (ctx.replacement kind content value keep)
      ((ctx.relaxed limit settle).replacement kind content value keep) := by
  unfold replacement
  cases Token.nameAndWidth content with
  | mk name width? =>
    show Persists (if ctx.defers kind value then _ else _) (if ctx.defers kind value then _ else _)
    cases ctx.defers kind value with
    | true => exact .refl _
    | false =>
      cases width? with
      | none => exact .refl _
      | some w =>
        apply (Persists.refl (width content w)).bind
        intro width
        apply (hsettle value).bind
        intro settled
        exact .refl _

theorem persists_replaceToken (kind : TokenKind) (required : Bool) (content : Text) (s : Progress) :
    Persists (ctx.replaceToken kind required content s)
      ((ctx.relaxed limit settle).replaceToken kind required content s) := by
  unfold replaceToken
  apply (Persists.refl (ctx.resolve kind (Token.nameAndWidth content).1)).bind
  intro found
  cases found with
  | none => exact .refl _
  | some value =>
    apply (persists_replacement hsettle kind content value s.keep).bind
    intro put
    exact .refl _

/-- A sweep that comes to its end within its budget does so within a greater one. -/
theorem persists_sweepFrom (kind : TokenKind) (required : Bool) (input : Text) {budget more : Nat}
    (hbudget : budget ≤ more) (s : Progress) :
    Persists (ctx.sweepFrom kind required input budget s)
      ((ctx.relaxed limit settle).sweepFrom kind required input more s) := by
  induction budget generalizing more s with
  | zero =>
    unfold sweepFrom
    cases Token.first? kind s.text with
    | none => exact .refl _
    | some content => exact .out input _ _
  | succ budget ih =>
    obtain ⟨more, rfl⟩ : ∃ less, more = less + 1 := ⟨more - 1, by omega⟩
    unfold sweepFrom
    cases Token.first? kind s.text with
    | none => exact .refl _
    | some content =>
      apply (persists_replaceToken hsettle kind required content s).bind
      intro next
      exact ih (Nat.le_of_succ_le_succ hbudget) next

theorem persists_unrollFirst (branch : Branch) :
    Persists (ctx.unrollFirst branch) ((ctx.relaxed limit settle).unrollFirst branch) := by
  unfold unrollFirst
  cases Token.first? .loop branch.value with
  | none => exact .refl _
  | some content =>
    apply (Persists.refl (ctx.source (Token.nameAndWidth content).1)).bind
    intro found
    cases found with
    | none => exact .refl _
    | some value =>
      apply (hsettle value).bind
      intro raw
      exact .refl _

/-- Markers that are unrolled within the budget are so within a greater one. -/
theorem persists_unrollFrom (input : Text) {budget more : Nat} (hbudget : budget ≤ more)
    (branches : List Branch) :
    Persists (ctx.unrollFrom input budget branches)
      ((ctx.relaxed limit settle).unrollFrom input more branches) := by
  induction budget generalizing more branches with
  | zero =>
    cases branches with
    | nil =>
      rw [unrollFrom_nil, unrollFrom_nil]
      exact .refl _
    | cons branch rest => exact .out input _ _
  | succ budget ih =>
    obtain ⟨more, rfl⟩ : ∃ less, more = less + 1 := ⟨more - 1, by omega⟩
    cases branches with
    | nil =>
      rw [unrollFrom_nil, unrollFrom_nil]
      exact .refl _
    | cons branch rest =>
      unfold unrollFrom
      apply (Persists.mapM (persists_unrollFirst hsettle) (branch :: rest)).bind
      intro next
      apply (ih (Nat.le_of_succ_le_succ hbudget) _).bind
      intro unrolled
      exact .refl _

variable (hlimit : ctx.services.limit ≤ limit)
include hlimit

theorem persists_round (s : Progress) (sweeps : List (TokenKind × Bool)) :
    Persists (ctx.round s sweeps) ((ctx.relaxed limit settle).round s sweeps) := by
  induction sweeps generalizing s with
  | nil => exact .refl _
  | cons sweep rest ih =>
    apply (persists_sweepFrom hsettle sweep.1 sweep.2 s.text hlimit { text := s.text }).bind
    intro swept
    exact ih _

/-- Rounds that come to rest within their budget do so within a greater one. -/
theorem persists_settleFrom (sweeps : List (TokenKind × Bool)) (input : Text) {budget more : Nat}
    (hbudget : budget ≤ more) (branch : Branch) :
    Persists (ctx.settleFrom sweeps input budget branch)
      ((ctx.relaxed limit settle).settleFrom sweeps input more branch) := by
  induction budget generalizing more branch with
  | zero => exact .out input _ _
  | succ budget ih =>
    obtain ⟨more, rfl⟩ : ∃ less, more = less + 1 := ⟨more - 1, by omega⟩
    unfold settleFrom
    apply (persists_round hsettle hlimit ⟨true, branch.value, branch.keep⟩ sweeps).bind
    intro s
    cases s.done with
    | true => exact .refl _
    | false => exact ih (Nat.le_of_succ_le_succ hbudget) ⟨s.text, s.keep⟩

theorem persists_settleSweeps (sweeps : List (TokenKind × Bool)) (branch : Branch) :
    Persists (ctx.settleSweeps sweeps branch)
      ((ctx.relaxed limit settle).settleSweeps sweeps branch) :=
  persists_settleFrom hsettle hlimit sweeps branch.value hlimit branch

theorem persists_unroll (branch : Branch) :
    Persists (ctx.unroll branch) ((ctx.relaxed limit settle).unroll branch) := by
  unfold unroll
  cases Token.hasToken .loop branch.value with
  | true => exact persists_unrollFrom hsettle branch.value hlimit [branch]
  | false => exact .refl _

theorem persists_substitute (text : Text) :
    Persists (ctx.substitute text) ((ctx.relaxed limit settle).substitute text) := by
  unfold substitute
  apply (persists_settleSweeps hsettle hlimit variableSweeps ⟨text, []⟩).bind
  intro settled
  apply (persists_settleSweeps hsettle hlimit callSweeps settled).bind
  intro called
  cases Token.hasToken .loop called.value with
  | false => exact .refl _
  | true => exact (persists_unroll hsettle hlimit called).map Substitution.Result.multi

end

end Context

theorem persists_settleWith {run wider : Text → Except Error Substitution.Result}
    (h : ∀ text, Persists (run text) (wider text)) (value : Text) :
    Persists (settleWith run value) (settleWith wider value) := by
  unfold settleWith
  cases value.contains '$' with
  | true =>
    apply (h value).bind
    intro result
    exact .refl _
  | false => exact .refl _

/-- Substitution within a depth goes the same way under a greater limit and within a greater depth.
-/
theorem persists_within (source : Source) {services : Services} {limit : Nat}
    (hlimit : services.limit ≤ limit) {depth more : Nat} (hdepth : depth ≤ more) (expand : Bool)
    (text : Text) :
    Persists (within source services depth expand text)
      (within source (services.withLimit limit) more expand text) := by
  induction depth generalizing more expand text with
  | zero => exact .out text _ _
  | succ depth ih =>
    obtain ⟨more, rfl⟩ : ∃ less, more = less + 1 := ⟨more - 1, by omega⟩
    have hsettle := persists_settleWith fun value =>
      ih (Nat.le_of_succ_le_succ hdepth) false value
    exact Context.persists_substitute hsettle hlimit text

end Substitution

open Substitution

section

variable {services : Services} {limit : Nat} (hlimit : services.limit ≤ limit)
include hlimit

theorem persists_substitute (source : Source) (expand : Bool) (text : Text) :
    Persists (substitute source services expand text)
      (substitute source (services.withLimit limit) expand text) :=
  persists_within source hlimit (Nat.succ_le_succ hlimit) expand text

theorem persists_substituteOne (source : Source) (expand : Bool) (text : Text) :
    Persists (substituteOne source services expand text)
      (substituteOne source (services.withLimit limit) expand text) := by
  apply (persists_substitute hlimit source expand text).bind
  intro result
  exact .refl _

theorem Document.persists_resolvedValue? (doc : Document) (key : Text) (search : Search)
    (substituteTokens : Bool) :
    Persists (doc.resolvedValue? key search services substituteTokens)
      (doc.resolvedValue? key search (services.withLimit limit) substituteTokens) := by
  apply (Persists.refl (doc.search key search)).bind
  intro found
  match found, substituteTokens with
  | none, _ => exact .refl _
  | some (.subsection mode entries), _ => exact .refl _
  | some (.scalar text), false => exact .refl _
  | some (.scalar text), true =>
    apply (persists_substitute hlimit (.ofDocument doc search) true text).bind
    intro result
    exact .refl _

end

end WorkflowControl
