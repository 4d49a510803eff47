import Mathlib.Algebra.Group.Nat.Defs
import WorkflowControl.Proofs.Substitution.Independent
import WorkflowControl.Proofs.Substitution.Run

/-!
Texts of names that are defined by texts of names again. If no name is defined by way of itself, the
sweep over them comes to an end. It does not replace each name once, though: a name that was
replaced comes back with a later value, and so the number of replacements may be as large as the
number of ways to go through the definitions, which is less than two to the number of tokens
(`Meets.length_lt`). Whether the limit is reached depends on that number, not on the number of
names (`nonTermination_iff`).
-/

namespace WorkflowControl

open Outcome Relation Text Token

/-! ## Lists without a way back -/

section

variable {α : Type} {r : α → α → Prop}

/-- Whether a member of a list comes again only if one in between leads to it. -/
def ComesAgainBy (r : α → α → Prop) (xs : List α) : Prop :=
  ∀ before x between behind, xs = before ++ x :: (between ++ x :: behind) →
    ∃ u ∈ x :: between, r u x

theorem ComesAgainBy.of_append {xs ys : List α} (h : ComesAgainBy r (xs ++ ys)) :
    ComesAgainBy r xs ∧ ComesAgainBy r ys := by
  constructor
  · intro before x between behind heq
    exact h before x between (behind ++ ys) (by simp [heq])
  · intro before x between behind heq
    exact h (xs ++ before) x between behind (by simp [heq])

/-- Among finitely many there is one that none of them leads to, if none leads to itself. -/
theorem exists_first (hr : ∀ x, ¬ TransGen r x x) {vs : List α} (hne : vs ≠ []) :
    ∃ a ∈ vs, ∀ u ∈ vs, ¬ TransGen r u a := by
  induction vs with
  | nil => exact absurd rfl hne
  | cons v vs ih =>
    cases vs with
    | nil =>
      refine ⟨v, List.mem_cons_self, fun u hu => ?_⟩
      obtain rfl := List.mem_singleton.mp hu
      exact hr u
    | cons w ws =>
      obtain ⟨a, ha, hfirst⟩ := ih (List.cons_ne_nil w ws)
      -- Where `v` leads to the first of the others, `v` is the first of all.
      by_cases hv : TransGen r v a
      · refine ⟨v, List.mem_cons_self, fun u hu huv => ?_⟩
        rcases List.mem_cons.mp hu with rfl | hu
        · exact hr u huv
        · exact hfirst u hu (huv.trans hv)
      · refine ⟨a, List.mem_cons_of_mem v ha, fun u hu => ?_⟩
        rcases List.mem_cons.mp hu with rfl | hu
        · exact hv
        · exact hfirst u hu

/-- A list in which a member comes again only by way of one that leads to it is shorter than two to
the number of its members, if none leads to itself. -/
theorem ComesAgainBy.length_lt [DecidableEq α] (hr : ∀ x, ¬ TransGen r x x) (n : Nat) :
    ∀ {vs xs : List α}, vs.length ≤ n → xs ⊆ vs → ComesAgainBy r xs →
      xs.length < 2 ^ vs.length := by
  induction n with
  | zero =>
    intro vs xs hn hsubset _
    obtain rfl := List.length_eq_zero_iff.mp (Nat.le_zero.mp hn)
    obtain rfl := List.subset_nil.mp hsubset
    exact Nat.one_pos
  | succ n ih =>
    intro vs xs hn hsubset hagain
    by_cases hne : vs = []
    · subst hne
      obtain rfl := List.subset_nil.mp hsubset
      exact Nat.one_pos
    · obtain ⟨a, ha, hfirst⟩ := exists_first hr hne
      have hfewer : (vs.filter (· ≠ a)).length < vs.length :=
        List.length_filter_lt_length_iff_exists.mpr ⟨a, ha, by simp⟩
      have hpow : 2 * 2 ^ (vs.filter (· ≠ a)).length ≤ 2 ^ vs.length := by
        rw [Nat.mul_comm, ← Nat.pow_succ]
        exact Nat.pow_le_pow_right Nat.two_pos hfewer
      have hrest : ∀ {ys : List α}, ys ⊆ vs → a ∉ ys → ComesAgainBy r ys →
          ys.length < 2 ^ (vs.filter (· ≠ a)).length := by
        intro ys hys hnot hagain
        refine ih (by omega) (fun y hy => List.mem_filter.mpr ⟨hys hy, ?_⟩) hagain
        have hya : y ≠ a := fun heq => hnot (heq ▸ hy)
        simpa using hya
      by_cases hmem : a ∈ xs
      · obtain ⟨before, behind, rfl, hbefore⟩ := List.eq_append_cons_of_mem hmem
        -- What none leads to does not come again, so the list has it once.
        have hbehind : a ∉ behind := by
          intro hin
          obtain ⟨between, rest, rfl⟩ := List.append_of_mem hin
          obtain ⟨u, hu, hua⟩ := hagain before a between rest rfl
          refine hfirst u (hsubset ?_) (.single hua)
          simp only [List.mem_append, List.mem_cons] at hu ⊢
          rcases hu with hu | hu
          · exact .inr (.inl hu)
          · exact .inr (.inr (.inl hu))
        obtain ⟨hagainBefore, hagainRest⟩ := hagain.of_append
        have hsingle : before ++ a :: behind = before ++ [a] ++ behind := by simp
        have hagainBehind : ComesAgainBy r behind := (hsingle ▸ hagain).of_append.2
        have hfront := hrest (fun y hy => hsubset (by simp [hy])) hbefore hagainBefore
        have hback := hrest (fun y hy => hsubset (by simp [hy])) hbehind hagainBehind
        simp only [List.length_append, List.length_cons]
        omega
      · exact Nat.lt_of_lt_of_le (hrest hsubset hmem hagain) (by omega)

end

namespace Substitution

/-! ## Definitions by names -/

/-- A template of literals without `$` and of names from a list. -/
structure NamePieces (tokens : List Text) (ps : List Piece) : Prop where
  names : ∀ p ∈ ps, p.IsName .required
  subset : contents .required ps ⊆ tokens

/-- Whether a text is made of literals without `$` and of names from a list. -/
def IsMadeOf (tokens : List Text) (t : Text) : Prop := ∃ ps, NamePieces tokens ps ∧ render ps = t

/-- Whether the value of one variable has another one in it. The variables are in lower case. -/
def LeadsTo (source : Source) (tokens : List Text) (name other : Text) : Prop :=
  ∃ c ∈ tokens, ∃ d ∈ tokens, c.lower = name ∧ d.lower = other
    ∧ ∃ value, source c = .ok (some value) ∧ TokenKind.required.token d <:+: value

/-- Names that are defined by one another, but none by way of itself. -/
structure IsAcyclic (source : Source) (tokens : List Text) : Prop where
  defined : ∀ c ∈ tokens, ∃ value, source c = .ok (some value) ∧ IsMadeOf tokens value
  acyclic : ∀ name, ¬ TransGen (LeadsTo source tokens) name name

variable {source : Source} {services : Services} {tokens : List Text} {c value : Text}
  {ps vs : List Piece}

/-- A name is replaced by its value, under any services that can search for it. -/
theorem replaceToken_of_name (hname : ':' ∉ c) (hvalue : source c = .ok (some value))
    (required : Bool) (s : Progress) :
    (Context.outermost source services false).replaceToken .required required c s
      = (checkSearch services .required c).map fun _ =>
        ⟨false, Token.replaceAll .required c value s.text, s.keep.put c value⟩ := by
  have hresolve : (Context.outermost source services false).resolve .required c
      = .ok (some value) := hvalue
  unfold Context.replaceToken Context.replacement Substitution.replaceAll
  rw [nameAndWidth_of_not_mem hname]
  dsimp only
  rw [hresolve, Context.services_outermost]
  cases checkSearch services .required c <;> rfl

namespace NamePieces

theorem plain (h : NamePieces tokens ps) : ∀ p ∈ ps, p.Plain := fun p hp => (h.names p hp).plain

theorem name_of_mem (h : NamePieces tokens ps) (hc : c ∈ contents .required ps) :
    Piece.IsContent c ∧ ':' ∉ c := by
  obtain ⟨tag, hp⟩ := mem_contents_iff.mp hc
  exact (h.names _ hp).2.2

theorem infix_render (h : NamePieces tokens ps) (hc : c ∈ contents .required ps) :
    TokenKind.required.token c <:+: render ps := by
  obtain ⟨tag, hp⟩ := mem_contents_iff.mp hc
  obtain ⟨-, htag, -, -⟩ := h.names _ hp
  obtain rfl : tag = [] := List.length_eq_zero_iff.mp htag.length_eq.symm
  obtain ⟨before, behind, rfl⟩ := List.append_of_mem hp
  refine ⟨render before, render behind, ?_⟩
  simp [render, Piece.text, TokenKind.token, TokenKind.tag]

theorem mem_of_first? (h : NamePieces tokens ps) (hfirst : first? .required (render ps) = some c) :
    c ∈ contents .required ps := by
  rw [first?_render h.plain] at hfirst
  exact List.mem_of_mem_head? hfirst

/-- A text in which no name is found has none. -/
theorem dollar_not_mem (h : NamePieces tokens ps)
    (hnone : first? .required (render ps) = none) : '$' ∉ render ps := by
  rw [first?_render h.plain, List.head?_eq_none_iff] at hnone
  have hflat : FlatIn (fun _ => False) (render ps) := by
    refine ⟨ps, h.plain, fun kind c hc => ?_, rfl⟩
    by_cases hkind : kind = .required
    · rw [hkind, hnone] at hc
      cases hc
    · rw [contents_eq_nil_of_isName h.names hkind] at hc
      cases hc
  exact hflat.dollar_not_mem fun _ => id

/-- A step puts the pieces of a value in for a name. -/
theorem replaced (h : NamePieces tokens ps) (hvs : NamePieces tokens vs)
    (hc : c ∈ contents .required ps) :
    Token.replaceAll .required c (render vs) (render ps) = render (putPieces .required c vs ps)
      ∧ NamePieces tokens (putPieces .required c vs ps)
      ∧ ∀ d ∈ contents .required (putPieces .required c vs ps),
        d ∈ contents .required vs ∨ d ∈ contents .required ps ∧ d ≠ c := by
  have hmem : ∀ {tag d}, Piece.token .required tag d ∈ putPieces .required c vs ps →
      d ∈ contents .required vs ∨ d ∈ contents .required ps ∧ d ≠ c := by
    intro tag d hp
    rcases mem_putPieces hp with hp | ⟨hp, hnot⟩
    · exact .inl (mem_contents_iff.mpr ⟨tag, hp⟩)
    · refine .inr ⟨mem_contents_iff.mpr ⟨tag, hp⟩, fun heq => ?_⟩
      subst heq
      simp [Piece.isOccurrence, Alike.refl] at hnot
  refine ⟨replaceAll_render_render (h.name_of_mem hc).1.2.2 vs h.plain, ⟨fun p hp => ?_, ?_⟩, ?_⟩
  · exact (mem_putPieces hp).elim (hvs.names p) fun hin => h.names p hin.1
  · intro d hd
    obtain ⟨tag, hp⟩ := mem_contents_iff.mp hd
    exact (hmem hp).elim (fun hin => hvs.subset hin) fun hin => h.subset hin.1
  · intro d hd
    obtain ⟨tag, hp⟩ := mem_contents_iff.mp hd
    exact hmem hp

end NamePieces

/-! ## The run of the sweep -/

/-- What a step does in a sweep over names that are defined. -/
theorem IsAcyclic.step (h : IsAcyclic source tokens) {s next : Progress}
    (hps : NamePieces tokens ps) (htext : s.text = render ps)
    (hfirst : first? .required s.text = some c)
    (hnext : (Context.outermost source services false).replaceToken .required true c s
      = .ok next) :
    c ∈ contents .required ps ∧ ∃ ps', NamePieces tokens ps' ∧ next.text = render ps'
      ∧ ∀ d ∈ contents .required ps',
        LeadsTo source tokens c.lower d.lower ∨ d ∈ contents .required ps ∧ d ≠ c := by
  have hc := hps.mem_of_first? (htext ▸ hfirst)
  obtain ⟨value, hvalue, vs, hvs, hrender⟩ := h.defined c (hps.subset hc)
  rw [replaceToken_of_name (hps.name_of_mem hc).2 hvalue] at hnext
  obtain ⟨-, -, rfl⟩ := map_eq_ok_iff.mp hnext
  obtain ⟨hreplace, hpieces, hcontents⟩ := hps.replaced hvs hc
  refine ⟨hc, _, hpieces, ?_, fun d hd => (hcontents d hd).imp_left fun hin => ?_⟩
  · show Token.replaceAll .required c value s.text = _
    rw [htext, ← hrender, hreplace]
  · exact ⟨c, hps.subset hc, d, hvs.subset hin, rfl, rfl, value, hvalue,
      hrender ▸ hvs.infix_render hin⟩

/-- Each name that is replaced stands in the text, or a name that was replaced before leads to it. -/
theorem IsAcyclic.mem_of_meets (h : IsAcyclic source tokens) {cs : List Text} {s : Progress}
    (hmeets : (Context.outermost source services false).Meets .required true cs s) :
    ∀ {ps}, NamePieces tokens ps → s.text = render ps →
      ∀ before x behind, cs = before ++ x :: behind →
        (x ∈ tokens ∧ ':' ∉ x) ∧ (x ∈ contents .required ps
          ∨ ∃ u ∈ before, LeadsTo source tokens u.lower x.lower) := by
  induction hmeets with
  | nothing =>
    intro ps _ _ before x behind heq
    simp at heq
  | first hfirst =>
    intro ps hps htext before x behind heq
    have hc := hps.mem_of_first? (htext ▸ hfirst)
    cases before with
    | nil =>
      obtain ⟨rfl, -⟩ := List.cons.inj heq
      exact ⟨⟨hps.subset hc, (hps.name_of_mem hc).2⟩, .inl hc⟩
    | cons b before => simp at heq
  | @replaced c cs s next hfirst hnext _ ih =>
    intro ps hps htext before x behind heq
    obtain ⟨hc, ps', hps', htext', hcontents⟩ := h.step hps htext hfirst hnext
    cases before with
    | nil =>
      obtain ⟨rfl, -⟩ := List.cons.inj heq
      exact ⟨⟨hps.subset hc, (hps.name_of_mem hc).2⟩, .inl hc⟩
    | cons b before =>
      obtain ⟨rfl, hrest⟩ := List.cons.inj heq
      obtain ⟨htokens, hin | ⟨u, hu, hleads⟩⟩ := ih hps' htext' before x behind hrest
      · rcases hcontents x hin with hleads | ⟨hin, -⟩
        · exact ⟨htokens, .inr ⟨c, List.mem_cons_self, hleads⟩⟩
        · exact ⟨htokens, .inl hin⟩
      · exact ⟨htokens, .inr ⟨u, List.mem_cons_of_mem c hu, hleads⟩⟩

/-- A name is replaced again only if a name in between leads to it. -/
theorem IsAcyclic.comesAgainBy (h : IsAcyclic source tokens) {cs : List Text} {s : Progress}
    (hmeets : (Context.outermost source services false).Meets .required true cs s) :
    ∀ {ps}, NamePieces tokens ps → s.text = render ps →
      ComesAgainBy (fun c d => LeadsTo source tokens c.lower d.lower) cs := by
  induction hmeets with
  | nothing =>
    intro ps _ _ before x between behind heq
    simp at heq
  | first _ =>
    intro ps _ _ before x between behind heq
    have hlength := congrArg List.length heq
    simp only [List.length_cons, List.length_append, List.length_nil] at hlength
    omega
  | @replaced c cs s next hfirst hnext hrest ih =>
    intro ps hps htext before x between behind heq
    obtain ⟨hc, ps', hps', htext', hcontents⟩ := h.step hps htext hfirst hnext
    cases before with
    | nil =>
      obtain ⟨rfl, hcs⟩ := List.cons.inj heq
      obtain ⟨-, hin | ⟨u, hu, hleads⟩⟩ := h.mem_of_meets hrest hps' htext' between c behind hcs
      · rcases hcontents c hin with hleads | ⟨-, hne⟩
        · exact ⟨c, List.mem_cons_self, hleads⟩
        · exact absurd rfl hne
      · exact ⟨u, List.mem_cons_of_mem c hu, hleads⟩
    | cons b before =>
      obtain ⟨rfl, hcs⟩ := List.cons.inj heq
      exact ih hps' htext' before x between behind hcs

theorem transGen_lower {R : Text → Text → Prop} {c d : Text}
    (h : TransGen (fun c d : Text => R c.lower d.lower) c d) : TransGen R c.lower d.lower := by
  induction h with
  | single h => exact .single h
  | tail _ h ih => exact .tail ih h

/-- The sweep has fewer replacements than two to the number of names. -/
theorem IsAcyclic.length_lt (h : IsAcyclic source tokens) {cs : List Text} {s : Progress}
    (hmeets : (Context.outermost source services false).Meets .required true cs s)
    (hps : NamePieces tokens ps) (htext : s.text = render ps) : cs.length < 2 ^ tokens.length := by
  refine ComesAgainBy.length_lt (fun c hc => h.acyclic _ (transGen_lower hc)) _ (Nat.le_refl _)
    (fun x hx => ?_) (h.comesAgainBy hmeets hps htext)
  obtain ⟨before, behind, rfl⟩ := List.append_of_mem hx
  exact (h.mem_of_meets hmeets hps htext before x behind rfl).1.1

/-- So the sweep comes to an end, with the same replacements under any services with one search. -/
theorem IsAcyclic.exists_runs (h : IsAcyclic source tokens) (searchFault? : Text → Option Text)
    {s : Progress} (hps : NamePieces tokens ps) (htext : s.text = render ps) :
    ∃ cs : List Text, cs.length < 2 ^ tokens.length ∧ ∀ services : Services,
      services.searchFault? = searchFault? → ∃ outcome,
        (Context.outermost source services false).Runs .required true cs s outcome := by
  have hpositive : 0 < 2 ^ tokens.length := Nat.two_pow_pos _
  rcases Context.exists_runs_or_meets (Context.outermost source { searchFault? } false) .required
      true (2 ^ tokens.length - 1) s with ⟨cs, outcome, hlength, hruns⟩ | ⟨cs, hlength, hmeets⟩
  · refine ⟨cs, by omega, fun services hsearch => ⟨outcome, hruns.congr fun c hc s => ?_⟩⟩
    obtain ⟨before, behind, rfl⟩ := List.append_of_mem hc
    obtain ⟨⟨hin, hname⟩, -⟩ := h.mem_of_meets hruns.meets hps htext before c behind rfl
    obtain ⟨value, hvalue, -⟩ := h.defined c hin
    rw [replaceToken_of_name hname hvalue, replaceToken_of_name hname hvalue]
    subst hsearch
    rfl
  · have hlt := h.length_lt hmeets hps htext
    omega

/-- A run ends with a text without tokens, or with a token that no search can be built for. -/
theorem IsAcyclic.outcome (h : IsAcyclic source tokens) {cs : List Text} {s : Progress}
    {outcome : Except Error Progress}
    (hruns : (Context.outermost source services false).Runs .required true cs s outcome) :
    ∀ {ps}, NamePieces tokens ps → s.text = render ps →
      (∃ next, outcome = .ok next ∧ '$' ∉ next.text)
      ∨ ∃ c message, outcome
        = .error (.value (TokenKind.required.token c) (.noSearch message)) := by
  induction hruns with
  | settled hnone =>
    intro ps hps htext
    refine .inl ⟨_, rfl, ?_⟩
    rw [htext] at hnone ⊢
    exact hps.dollar_not_mem hnone
  | @refused c s e hfirst herror =>
    intro ps hps htext
    have hc := hps.mem_of_first? (htext ▸ hfirst)
    obtain ⟨value, hvalue, -⟩ := h.defined c (hps.subset hc)
    rw [replaceToken_of_name (hps.name_of_mem hc).2 hvalue] at herror
    cases hsearch : services.searchFault? (TokenKind.required.token c) with
    | none =>
      rw [Context.checkSearch_of_none hsearch] at herror
      cases herror
    | some message =>
      rw [Context.checkSearch_of_some hsearch] at herror
      exact .inr ⟨c, message, congrArg Except.error (Except.error.inj herror).symm⟩
  | replaced hfirst hnext _ ih =>
    intro ps hps htext
    obtain ⟨-, ps', hps', htext', -⟩ := h.step hps htext hfirst hnext
    exact ih hps' htext'

/-! ## The limit -/

/-- A round over a text of required names is the sweep over them. -/
theorem round_of_required (ctx : Context) {text : Text}
    (hnone : ∀ kind, kind ≠ .required → first? kind text = none) :
    ctx.round ⟨true, text, []⟩ Context.variableSweeps
      = (ctx.sweep .required true text).map fun swept =>
        ⟨swept.done, swept.text, Entries.putAll [] swept.keep⟩ := by
  rw [Context.variableSweeps, Context.round, Context.sweep_of_none (hnone .header (by decide))]
  show ctx.round ⟨true, text, []⟩ [(.optional, false), (.required, true)] = _
  rw [Context.round, Context.sweep_of_none (hnone .optional (by decide))]
  show ctx.round ⟨true, text, []⟩ [(.required, true)] = _
  rw [Context.round]
  cases ctx.sweep .required true text with
  | error e => rfl
  | ok swept => rfl

/-- A text of required names fails with its sweep, and when that ends without a token left, so does
the substitution. -/
theorem substitute_of_sweep (ctx : Context) {text : Text}
    (hnone : ∀ kind, kind ≠ .required → first? kind text = none) (hlimit : 2 ≤ ctx.services.limit) :
    (∀ e, ctx.sweep .required true text = .error e → ctx.substitute text = .error e)
    ∧ ∀ swept, ctx.sweep .required true text = .ok swept → '$' ∉ swept.text →
      ∃ b, ctx.substitute text = .ok (.single b) := by
  have hpositive : ctx.services.limit ≠ 0 := Nat.ne_of_gt (Nat.lt_of_lt_of_le Nat.two_pos hlimit)
  have hround := round_of_required ctx hnone
  constructor
  · intro e he
    rw [he] at hround
    exact Context.substitute_of_settleSweeps_error
      (Context.settleSweeps_of_round_error hround hpositive)
  · intro swept hswept hdollar
    rw [hswept] at hround
    have hleft : ∀ kind, first? kind swept.text = none :=
      fun kind => first?_eq_none_of_not_mem hdollar
    exact ⟨_, Context.substitute_of_settled
      (Context.settleSweeps_of_round
        (s := ⟨swept.done, swept.text, Entries.putAll [] swept.keep⟩)
        hround (fun p _ => hleft p.1) hlimit)
      (Context.settleSweeps_of_none (fun p _ => hleft p.1) hpositive) (hleft .loop)⟩

variable {doc : Document} {search : Search} {text : Text}

/-- A text of names that are defined by one another, none by way of itself, has a number of
replacements that depends on the text, the definitions and the search alone, and that is less than
two to the number of names. The substitution runs out of iterations if and only if the limit is less
than this number. It does not suffice that the limit is larger than the number of variables. -/
theorem nonTermination_iff (h : IsAcyclic (.ofDocument doc search) tokens)
    (htext : IsMadeOf tokens text) (searchFault? : Text → Option Text) :
    ∃ cs : List Text, cs.length < 2 ^ tokens.length
      ∧ (∀ services : Services, services.searchFault? = searchFault? → ∃ outcome,
        (Context.outermost (.ofDocument doc search) services false).Runs
          .required true cs { text := text } outcome)
      ∧ ∀ services : Services, services.searchFault? = searchFault? →
        (tokens.map Text.lower).eraseDups.length < services.limit →
        ((∃ input limit, substitute (.ofDocument doc search) services false text
            = .error (.nonTermination input limit)) ↔ services.limit < cs.length) := by
  obtain ⟨ps, hps, rfl⟩ := htext
  obtain ⟨cs, hlength, hruns⟩ := h.exists_runs searchFault? (s := { text := render ps }) hps rfl
  refine ⟨cs, hlength, hruns, fun services hsearch hlimit => ?_⟩
  have hnone : ∀ kind, kind ≠ .required → first? kind (render ps) = none :=
    fun kind hkind => first?_eq_none_of_isName hps.names hkind
  obtain ⟨outcome, hrun⟩ := hruns services hsearch
  by_cases hfirst : first? .required (render ps) = none
  · -- Without a name there is nothing to replace.
    have hdollar := hps.dollar_not_mem hfirst
    have hpositive : services.limit ≠ 0 := Nat.ne_of_gt (Nat.zero_lt_of_lt hlimit)
    have hok : (Context.outermost (.ofDocument doc search) services false).substitute (render ps)
        = .ok (.single ⟨render ps, []⟩) :=
      Context.substitute_of_none (fun _ => first?_eq_none_of_not_mem hdollar) hpositive
    have hcs : cs = [] := by
      cases hrun with
      | settled _ => rfl
      | refused hsome _ => cases hfirst.symm.trans hsome
      | replaced hsome _ _ => cases hfirst.symm.trans hsome
    rw [substitute_eq_outermost, hok, hcs]
    simp
  · have htwo : 2 ≤ services.limit := by
      obtain ⟨c, hc⟩ := Option.ne_none_iff_exists'.mp hfirst
      have hmem := hps.subset (hps.mem_of_first? hc)
      cases tokens with
      | nil => cases hmem
      | cons d tokens =>
        rw [List.map_cons, List.eraseDups_cons, List.length_cons] at hlimit
        omega
    obtain ⟨herror, hok⟩ :=
      substitute_of_sweep (.outermost (.ofDocument doc search) services false) hnone htwo
    have hsweep : (Context.outermost (.ofDocument doc search) services false).sweep .required true
        (render ps) = _ := hrun.sweepFrom_eq services.limit
    rw [substitute_eq_outermost]
    by_cases hle : cs.length ≤ services.limit
    · rw [if_pos hle] at hsweep
      rcases h.outcome hrun hps rfl with ⟨next, rfl, hdollar⟩ | ⟨c, message, rfl⟩
      · obtain ⟨b, hb⟩ := hok next hsweep hdollar
        rw [hb]
        simp [hle]
      · rw [herror _ hsweep]
        simp [hle]
    · rw [if_neg hle] at hsweep
      rw [herror _ hsweep]
      exact ⟨fun _ => Nat.lt_of_not_le hle, fun _ => ⟨_, _, rfl⟩⟩

/-- A variable that two others are defined by. -/
def sharedDocument : Document where
  root := { entries := [
    (['b'], .scalar ['x']),
    (['c'], .scalar ['$', '{', 'b', '}']),
    (['d'], .scalar ['$', '{', 'b', '}'])] }

def sharedNames : List Text := [['b'], ['c'], ['d']]

/-- The three variables in turn. -/
def sharedText : Text := ['$', '{', 'b', '}', '$', '{', 'c', '}', '$', '{', 'd', '}']

theorem eq_of_mem_sharedNames : ∀ t ∈ sharedNames, t = ['b'] ∨ t = ['c'] ∨ t = ['d'] := by decide

/-- Whatever leads somewhere is not `b`, and it leads to `b`. -/
theorem leadsTo_sharedDocument {n m : Text}
    (h : LeadsTo (.ofDocument sharedDocument {}) sharedNames n m) : n ≠ ['b'] ∧ m = ['b'] := by
  obtain ⟨t, ht, u, hu, rfl, rfl, value, hvalue, hstands⟩ := h
  have hdollar : '$' ∈ value := hstands.subset List.mem_cons_self
  have hin : u ⊆ value := fun x hx => hstands.subset (by simp [TokenKind.token, hx])
  have hne : t ≠ ['b'] := by
    rintro rfl
    obtain rfl := Option.some.inj (Except.ok.inj hvalue)
    exact absurd hdollar (by decide)
  have hshared : value = ['$', '{', 'b', '}'] := by
    rcases eq_of_mem_sharedNames t ht with rfl | rfl | rfl
    · exact absurd rfl hne
    · exact (Option.some.inj (Except.ok.inj hvalue)).symm
    · exact (Option.some.inj (Except.ok.inj hvalue)).symm
  rw [hshared] at hin
  constructor
  · rcases eq_of_mem_sharedNames t ht with rfl | rfl | rfl
    · exact absurd rfl hne
    · decide
    · decide
  · rcases eq_of_mem_sharedNames u hu with rfl | rfl | rfl
    · rfl
    · exact absurd (hin List.mem_cons_self) (by decide)
    · exact absurd (hin List.mem_cons_self) (by decide)

theorem isAcyclic_sharedDocument : IsAcyclic (.ofDocument sharedDocument {}) sharedNames := by
  refine ⟨fun t ht => ?_, fun name hcycle => ?_⟩
  · have hb : IsMadeOf sharedNames ['$', '{', 'b', '}'] :=
      ⟨[.ofKind .required ['b']], ⟨by decide, by decide⟩, rfl⟩
    rcases eq_of_mem_sharedNames t ht with rfl | rfl | rfl
    · exact ⟨['x'], rfl, [.literal ['x']], ⟨by decide, by decide⟩, rfl⟩
    · exact ⟨_, rfl, hb⟩
    · exact ⟨_, rfl, hb⟩
  · have hpath : ∀ {n m}, TransGen (LeadsTo (.ofDocument sharedDocument {}) sharedNames) n m →
        n ≠ ['b'] ∧ m = ['b'] := by
      intro n m h
      induction h with
      | single h => exact leadsTo_sharedDocument h
      | tail _ h ih => exact ⟨ih.1, (leadsTo_sharedDocument h).2⟩
    obtain ⟨hne, heq⟩ := hpath hcycle
    exact hne heq

/-- Four iterations do not suffice for three variables, since the first one comes back twice. -/
theorem nonTermination_sharedText :
    (sharedNames.map Text.lower).eraseDups.length < 4
      ∧ substitute (.ofDocument sharedDocument {}) { limit := 4 } false sharedText
        = .error (.nonTermination sharedText 4)
      ∧ ∃ cs : List Text, 4 < cs.length ∧ cs.length < 2 ^ sharedNames.length := by
  have hmade : IsMadeOf sharedNames sharedText :=
    ⟨[.ofKind .required ['b'], .ofKind .required ['c'], .ofKind .required ['d']],
      ⟨by decide, by decide⟩, rfl⟩
  obtain ⟨cs, hlength, -, hiff⟩ := nonTermination_iff isAcyclic_sharedDocument hmade
    (fun _ => none)
  have herror : substitute (.ofDocument sharedDocument {}) { limit := 4 } false sharedText
      = .error (.nonTermination sharedText 4) := rfl
  have hfew : (sharedNames.map Text.lower).eraseDups.length < 4 := by decide
  exact ⟨hfew, herror, cs, (hiff { limit := 4 } rfl hfew).mp ⟨_, _, herror⟩, hlength⟩

end Substitution

end WorkflowControl
