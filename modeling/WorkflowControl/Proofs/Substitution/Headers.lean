import WorkflowControl.Proofs.Substitution.Unroll
import WorkflowControl.Substitution

/-!
Substitution with another source of headers. A substitution that does not fail goes the same way with
a source that answers all that it was answered, and perhaps more (`substitute_of_extends`).

Headers are read in one place only, where a header token is replaced. So the two substitutions are
gone through side by side (`Carries`), with a property of the texts in between that says which header
tokens can come up there. All the functions but the one that replaces a token pass it on
(`carries_within`).
-/

namespace WorkflowControl

/-- The services with another source of headers. -/
def Services.withHeaders (services : Services) (headers : HeaderSource) : Services :=
  { services with headers := headers }

/-- Whether a source of headers gives every answer that another one gives. -/
def HeaderSource.Extends (headers others : HeaderSource) : Prop :=
  ∀ path keys values, others.values path keys = .ok values → headers.values path keys = .ok values

namespace Substitution

open Outcome Token

variable {α β : Type} {P : α → Prop} {R : β → Prop}

/-- Whether `y` gives what `x` gives unless `x` fails, and a property holds of it. -/
def Carries (P : α → Prop) (x y : Except Error α) : Prop := ∀ a, x = .ok a → y = .ok a ∧ P a

namespace Carries

theorem same {x : Except Error α} (h : ∀ a, x = .ok a → P a) : Carries P x x :=
  fun a ha => ⟨ha, h a ha⟩

theorem error (e : Error) (y : Except Error α) : Carries P (.error e) y := fun _ ha => nomatch ha

theorem ok {a : α} (h : P a) : Carries P (.ok a) (.ok a) := same fun _ ha => Except.ok.inj ha ▸ h

theorem and {x y : Except Error α} {Q : α → Prop} (hxy : Carries P x y)
    (h : ∀ a, x = .ok a → Q a) : Carries Q x y := fun a ha => ⟨(hxy a ha).1, h a ha⟩

theorem bind {x y : Except Error α} {f g : α → Except Error β} (hxy : Carries P x y)
    (hfg : ∀ a, P a → Carries R (f a) (g a)) : Carries R (x >>= f) (y >>= g) := by
  intro b hb
  obtain ⟨a, ha, hf⟩ := bind_eq_ok_iff.mp hb
  obtain ⟨hy, hP⟩ := hxy a ha
  obtain ⟨hg, hR⟩ := hfg a hP b hf
  exact ⟨bind_eq_ok_iff.mpr ⟨a, hy, hg⟩, hR⟩

theorem map {x y : Except Error α} (hxy : Carries P x y) {f : α → β} (hf : ∀ a, P a → R (f a)) :
    Carries R (f <$> x) (f <$> y) := by
  rw [map_eq_pure_bind, map_eq_pure_bind]
  exact hxy.bind fun a ha => ok (hf a ha)

theorem mapM {f g : α → Except Error β} (hfg : ∀ a, Carries R (f a) (g a)) (xs : List α) :
    Carries (∀ y ∈ ·, R y) (xs.mapM f) (xs.mapM g) := by
  induction xs with
  | nil => exact ok fun y hy => absurd hy List.not_mem_nil
  | cons x xs ih =>
    rw [List.mapM_cons, List.mapM_cons]
    refine (hfg x).bind fun y hy => ih.bind fun ys hys => ok fun z hz => ?_
    rcases List.mem_cons.mp hz with rfl | hz
    · exact hy
    · exact hys z hz

end Carries

namespace Context

/-- The same context with another source of headers, and with another way to settle values. -/
def reading (ctx : Context) (headers : HeaderSource) (settle : Text → Except Error Text) : Context :=
  { ctx with services := ctx.services.withHeaders headers, settle := settle }

/-- A property of texts that every step keeps, and under which a header token that can be replaced
can be so with the other source. -/
structure Upholds (ctx : Context) (headers : HeaderSource) (settle : Text → Except Error Text)
    (P : Text → Prop) : Prop where
  values : ∀ kind name value, kind ≠ .header → ctx.resolve kind name = .ok (some value) → P value
  settles : ∀ value, P value → Carries (fun _ => True) (ctx.settle value) (settle value)
  header : ∀ required content s, P s.text → first? .header s.text = some content →
    Carries (fun _ => True) (ctx.replaceToken .header required content s)
      ((ctx.reading headers settle).replaceToken .header required content s)
  step : ∀ kind required content s s', P s.text → first? kind s.text = some content →
    ctx.replaceToken kind required content s = .ok s' → P s'.text

variable {ctx : Context} {headers : HeaderSource} {settle : Text → Except Error Text}
  {P : Text → Prop}

section

variable (hsettle : ∀ value, P value → Carries (fun _ => True) (ctx.settle value) (settle value))
include hsettle

theorem carries_replacement (kind : TokenKind) (content : Text) {value : Text} (hvalue : P value)
    (keep : Entries Text) :
    Carries (fun _ => True) (ctx.replacement kind content value keep)
      ((ctx.reading headers settle).replacement kind content value keep) := by
  unfold replacement
  cases nameAndWidth content with
  | mk name width? =>
    show Carries _ (if ctx.defers kind value then _ else _) (if ctx.defers kind value then _ else _)
    cases ctx.defers kind value with
    | true => exact .ok trivial
    | false =>
      cases width? with
      | none => exact .ok trivial
      | some w =>
        apply (Carries.same fun _ _ => trivial : Carries (fun _ => True) _ (width content w)).bind
        intro width _
        apply (hsettle value hvalue).bind
        intro settled _
        exact .same fun _ _ => trivial

/-- A token is replaced alike if it stands for the same. -/
theorem carries_replaceToken_of_resolve {kind : TokenKind} (required : Bool) {content : Text}
    (s : Progress)
    (hresolve : Carries (∀ value ∈ ·, P value) (ctx.resolve kind (nameAndWidth content).1)
      ((ctx.reading headers settle).resolve kind (nameAndWidth content).1)) :
    Carries (fun _ => True) (ctx.replaceToken kind required content s)
      ((ctx.reading headers settle).replaceToken kind required content s) := by
  unfold replaceToken
  apply hresolve.bind
  intro found hfound
  cases found with
  | none => exact .same fun _ _ => trivial
  | some value =>
    apply (carries_replacement hsettle kind content (hfound value rfl) s.keep).bind
    intro put _
    exact .same fun _ _ => trivial

end

section

variable (h : ctx.Upholds headers settle P)
include h

theorem carries_replaceToken (kind : TokenKind) (required : Bool) {content : Text} {s : Progress}
    (hs : P s.text) (hfirst : first? kind s.text = some content) :
    Carries (fun s => P s.text) (ctx.replaceToken kind required content s)
      ((ctx.reading headers settle).replaceToken kind required content s) := by
  have hreplaced : Carries (fun _ => True) (ctx.replaceToken kind required content s)
      ((ctx.reading headers settle).replaceToken kind required content s) := by
    by_cases hkind : kind = .header
    · subst hkind
      exact h.header required content s hs hfirst
    · have hresolve : (ctx.reading headers settle).resolve kind = ctx.resolve kind := by
        cases kind with
        | header => exact absurd rfl hkind
        | _ => rfl
      refine carries_replaceToken_of_resolve h.settles required s ?_
      rw [hresolve]
      refine .same fun found hfound value hvalue => ?_
      obtain rfl := Option.mem_def.mp hvalue
      exact h.values kind _ value hkind hfound
  exact hreplaced.and fun s' => h.step kind required content s s' hs hfirst

theorem carries_sweepFrom (kind : TokenKind) (required : Bool) (input : Text) (budget : Nat)
    {s : Progress} (hs : P s.text) :
    Carries (fun s => P s.text) (ctx.sweepFrom kind required input budget s)
      ((ctx.reading headers settle).sweepFrom kind required input budget s) := by
  induction budget generalizing s with
  | zero =>
    unfold sweepFrom
    cases first? kind s.text with
    | none => exact .ok hs
    | some content => exact .error _ _
  | succ budget ih =>
    unfold sweepFrom
    cases hfirst : first? kind s.text with
    | none => exact .ok hs
    | some content =>
      apply (carries_replaceToken h kind required hs hfirst).bind
      intro next hnext
      exact ih hnext

theorem carries_round {s : Progress} (hs : P s.text) (sweeps : List (TokenKind × Bool)) :
    Carries (fun s => P s.text) (ctx.round s sweeps)
      ((ctx.reading headers settle).round s sweeps) := by
  induction sweeps generalizing s with
  | nil => exact .ok hs
  | cons sweep rest ih =>
    apply (carries_sweepFrom h sweep.1 sweep.2 s.text ctx.services.limit
      (s := { text := s.text }) hs).bind
    intro swept hswept
    exact ih (s := ⟨s.done && swept.done, swept.text, s.keep.putAll swept.keep⟩) hswept

theorem carries_settleFrom (sweeps : List (TokenKind × Bool)) (input : Text) (budget : Nat)
    {branch : Branch} (hbranch : P branch.value) :
    Carries (fun b => P b.value) (ctx.settleFrom sweeps input budget branch)
      ((ctx.reading headers settle).settleFrom sweeps input budget branch) := by
  induction budget generalizing branch with
  | zero => exact .error _ _
  | succ budget ih =>
    unfold settleFrom
    apply (carries_round h (s := ⟨true, branch.value, branch.keep⟩) hbranch sweeps).bind
    intro s hs
    cases s.done with
    | true => exact .ok hs
    | false =>
      have hnext : P (⟨s.text, s.keep⟩ : Branch).value := hs
      exact ih hnext

theorem carries_unrollFirst (branch : Branch) :
    Carries (fun _ => True) (ctx.unrollFirst branch)
      ((ctx.reading headers settle).unrollFirst branch) := by
  unfold unrollFirst
  cases first? .loop branch.value with
  | none => exact .ok trivial
  | some content =>
    have hsource : Carries (∀ value ∈ ·, P value) (ctx.source (nameAndWidth content).1)
        (ctx.source (nameAndWidth content).1) := by
      refine .same fun found hfound value hvalue => ?_
      obtain rfl := Option.mem_def.mp hvalue
      exact h.values .required _ value (by decide) hfound
    apply hsource.bind
    intro found hfound
    cases found with
    | none => exact .error _ _
    | some value =>
      apply (h.settles value (hfound value rfl)).bind
      intro raw _
      exact .same fun _ _ => trivial

theorem carries_unrollFrom (input : Text) (budget : Nat) (branches : List Branch) :
    Carries (fun _ => True) (ctx.unrollFrom input budget branches)
      ((ctx.reading headers settle).unrollFrom input budget branches) := by
  induction budget generalizing branches with
  | zero =>
    cases branches with
    | nil => exact .ok trivial
    | cons branch rest => exact .error _ _
  | succ budget ih =>
    cases branches with
    | nil => exact .ok trivial
    | cons branch rest =>
      unfold unrollFrom
      apply (Carries.mapM (carries_unrollFirst h) (branch :: rest)).bind
      intro next _
      apply (ih _).bind
      intro unrolled _
      exact .ok trivial

theorem carries_unroll (branch : Branch) :
    Carries (fun _ => True) (ctx.unroll branch) ((ctx.reading headers settle).unroll branch) := by
  unfold unroll
  cases hasToken .loop branch.value with
  | true => exact carries_unrollFrom h branch.value ctx.services.limit [branch]
  | false => exact .ok trivial

theorem carries_substitute {text : Text} (htext : P text) :
    Carries (fun _ => True) (ctx.substitute text)
      ((ctx.reading headers settle).substitute text) := by
  unfold substitute
  have hinitial : P (⟨text, []⟩ : Branch).value := htext
  apply (carries_settleFrom h variableSweeps text ctx.services.limit hinitial).bind
  intro settled hsettled
  apply (carries_settleFrom h callSweeps settled.value ctx.services.limit hsettled).bind
  intro called _
  cases hasToken .loop called.value with
  | false => exact .ok trivial
  | true => exact (carries_unroll h called).map fun _ _ => trivial

end

end Context

theorem carries_settleWith {run other : Text → Except Error Result} {value : Text}
    (h : Carries (fun _ => True) (run value) (other value)) :
    Carries (fun _ => True) (settleWith run value) (settleWith other value) := by
  unfold settleWith
  cases value.contains '$' with
  | true =>
    apply h.bind
    intro result _
    exact .same fun _ _ => trivial
  | false => exact .ok trivial

variable {source : Source} {services : Services} {headers : HeaderSource} {P : Text → Prop}

/-- Substitution at any depth goes the same way with the other source, if the property holds of the
text and the contexts on the way uphold it. -/
theorem carries_within
    (hupholds : ∀ expand run other, (∀ value, P value →
      Carries (fun _ => True) (settleWith run value) (settleWith other value)) →
        Context.Upholds ⟨source, services, expand, settleWith run⟩ headers (settleWith other) P)
    (depth : Nat) (expand : Bool) {text : Text} (htext : P text) :
    Carries (fun _ => True) (within source services depth expand text)
      (within source (services.withHeaders headers) depth expand text) := by
  induction depth generalizing expand text with
  | zero => exact .error _ _
  | succ depth ih =>
    have hsettle : ∀ value, P value →
        Carries (fun _ => True) (settleWith (within source services depth false) value)
          (settleWith (within source (services.withHeaders headers) depth false) value) :=
      fun value hvalue => carries_settleWith (ih false hvalue)
    exact Context.carries_substitute (hupholds expand _ _ hsettle) htext

/-- A header token stands for the same with a source that answers as much. -/
theorem Context.carries_resolve_header {ctx : Context} {settle : Text → Except Error Text}
    (hheaders : headers.Extends ctx.services.headers) (name : Text) :
    Carries (fun _ => True) (ctx.resolve .header name)
      ((ctx.reading headers settle).resolve .header name) := by
  intro found hfound
  obtain ⟨value, hvalue, rfl⟩ := map_eq_ok_iff.mp hfound
  obtain ⟨values, hvalues, rfl⟩ := map_eq_ok_iff.mp hvalue
  have hanswer : ctx.services.headers.values ((ItemList.split name ',').head?.getD [])
      (ItemList.split name ',').tail = .ok values := by
    unfold HeaderSource.read at hvalues
    cases hread : ctx.services.headers.values ((ItemList.split name ',').head?.getD [])
        (ItemList.split name ',').tail with
    | error fault =>
      rw [hread] at hvalues
      cases hvalues
    | ok answered =>
      rw [hread] at hvalues
      exact congrArg Except.ok (Except.ok.inj hvalues)
  have hother : (ctx.reading headers settle).services.headers.read
      ((ItemList.split name ',').head?.getD []) (ItemList.split name ',').tail = .ok values := by
    show Except.mapError _ (headers.values _ _) = _
    rw [hheaders _ _ _ hanswer]
    rfl
  refine ⟨map_eq_ok_iff.mpr ⟨_, map_eq_ok_iff.mpr ⟨values, hother, rfl⟩, rfl⟩, trivial⟩

end Substitution

open Substitution

/-- A substitution that does not fail has the same result with a source of headers that answers as
much. -/
theorem substitute_of_extends {source : Source} {services : Services} {headers : HeaderSource}
    (hheaders : headers.Extends services.headers) {expand : Bool} {text : Text} {result : Result}
    (hok : substitute source services expand text = .ok result) :
    substitute source (services.withHeaders headers) expand text = .ok result := by
  have hupholds : ∀ expand run other, (∀ value, True →
      Carries (fun _ => True) (settleWith run value) (settleWith other value)) →
        Context.Upholds ⟨source, services, expand, settleWith run⟩ headers (settleWith other)
          fun _ => True := by
    intro expand run other hsettle
    refine ⟨fun _ _ _ _ _ => trivial, hsettle, fun required content s _ _ => ?_,
      fun _ _ _ _ _ _ _ _ => trivial⟩
    refine Context.carries_replaceToken_of_resolve hsettle required s ?_
    exact (Context.carries_resolve_header hheaders _).and fun _ _ _ _ => trivial
  exact (carries_within hupholds (services.limit + 1) expand trivial result hok).1

end WorkflowControl
