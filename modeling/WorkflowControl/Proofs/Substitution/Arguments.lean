import WorkflowControl.Proofs.Substitution.Independent

/-!
Texts that are one header token or one call. Such a text is read in one step, by the phase that its
kind belongs to, and what is put in for it ends the substitution (`substitute_token`).

The content is a list of arguments, but the step that reads it is the one of all tokens, and takes
what stands behind a colon for a width. So a content gives what it asks for, whatever the headers
and functions are, only if it has no colon and a search can be built for the token
(`yields_answer_iff`): of `count,1:3` the call gets the `1`, and its result is filled up to three
digits.
-/

namespace WorkflowControl

open Outcome Text Token

namespace Substitution

/-- What a content asks for as a whole: the values of a header, or the result of a call. -/
def answer (services : Services) : TokenKind → Text → Except Error Text
  | .header, content => headerValues services content
  | _, content => callResult services content

/-- The kinds of the tokens whose contents are lists of arguments. -/
def TakesArguments (kind : TokenKind) : Prop := kind = .header ∨ kind = .function

/-- Whether a substitution gives a text, or the error in its place. -/
def Yields (outcome : Except Error Result) : Except Error Text → Prop
  | .ok value => ∃ keep, outcome = .ok (.single ⟨value, keep⟩)
  | .error e => outcome = .error e

/-! ## The text of one token -/

theorem render_ofKind (kind : TokenKind) (content : Text) :
    render [.ofKind kind content] = kind.token content := by
  simp [render, Piece.text_ofKind]

theorem plain_singleton {kind : TokenKind} {content : Text} (hcontent : Piece.IsContent content) :
    ∀ p ∈ [Piece.ofKind kind content], p.Plain := by
  intro p hp
  obtain rfl := List.mem_singleton.mp hp
  exact Piece.plain_ofKind kind hcontent

theorem first?_token {kind : TokenKind} {content : Text} (hcontent : Piece.IsContent content)
    (other : TokenKind) :
    first? other (kind.token content) = if kind = other then some content else none := by
  rw [← render_ofKind, first?_render (plain_singleton hcontent)]
  by_cases hkind : kind = other
  · simp [contents, Piece.contentOf?, Piece.ofKind, hkind]
  · simp [contents, Piece.contentOf?, Piece.ofKind, hkind]

theorem replaceAll_token {kind : TokenKind} {content : Text} (hcontent : Piece.IsContent content)
    (value : Text) : Token.replaceAll kind content value (kind.token content) = value := by
  have hown : (Piece.ofKind kind content).isOccurrence kind content = true := by
    simp [Piece.ofKind, Piece.isOccurrence, Alike.refl]
  rw [← render_ofKind, replaceAll_render hcontent.2.2 _ (plain_singleton hcontent)]
  simp [hown]

/-! ## Reading the token -/

namespace Context

variable {ctx : Context} {kind : TokenKind} {content : Text}

theorem resolve_eq_answer (hkind : TakesArguments kind) (name : Text) :
    ctx.resolve kind name = (answer ctx.services kind name).map some := by
  rcases hkind with rfl | rfl
  · rfl
  · rfl

/-- A header token and a call are never left to the unrolling, so it does not matter for their step
whether variables are. -/
theorem replaceToken_eq_read (hkind : TakesArguments kind)
    (hsettle : ∀ value, '$' ∉ value → ctx.settle value = .ok value)
    (hvalue : ∀ value, ctx.found? kind content = some value → '$' ∉ value) (s : Progress) :
    ctx.replaceToken kind true content s
      = (ctx.read kind true content).map fun put => ⟨s.done && (ctx.found? kind content).isNone,
          Token.replaceAll kind content put s.text, ctx.keepFound kind s.keep content⟩ := by
  have hputs : PutsIn { ctx with expand := false } := ⟨rfl, hsettle⟩
  rcases hkind with rfl | rfl
  · show Context.replaceToken { ctx with expand := false } .header true content s = _
    exact hputs.replaceToken_eq hvalue
  · show Context.replaceToken { ctx with expand := false } .function true content s = _
    exact hputs.replaceToken_eq hvalue

/-- A token whose value has no `$`, in a context that takes such a value as it is. -/
structure ReadsToken (ctx : Context) (kind : TokenKind) (content : Text) : Prop where
  takes : TakesArguments kind
  isContent : Piece.IsContent content
  settle : ∀ value, '$' ∉ value → ctx.settle value = .ok value
  value : ∀ value, ctx.found? kind content = some value → '$' ∉ value
  limit : 2 ≤ ctx.services.limit

namespace ReadsToken

variable (h : ctx.ReadsToken kind content)

include h

theorem limit_ne_zero : ctx.services.limit ≠ 0 := by
  have hlimit := h.limit
  omega

/-- The sweep over the tokens of the kind ends with the first step. -/
theorem sweep_eq : ∃ done, ctx.sweep kind true (kind.token content)
    = (ctx.read kind true content).map fun put =>
        ⟨done, put, ctx.keepFound kind [] content⟩ := by
  obtain ⟨budget, hbudget⟩ := Nat.exists_eq_add_of_le' h.limit
  have hfirst : first? kind (kind.token content) = some content := by
    rw [first?_token h.isContent, if_pos rfl]
  refine ⟨(ctx.found? kind content).isNone, ?_⟩
  rw [sweep, hbudget, sweepFrom, hfirst]
  dsimp only
  rw [replaceToken_eq_read h.takes h.settle h.value]
  cases hread : ctx.read kind true content with
  | error e => rfl
  | ok put =>
    have hnone : first? kind put = none :=
      first?_eq_none_of_not_mem (dollar_not_mem_read h.value hread)
    simp only [Except.map, ok_bind, replaceAll_token h.isContent, Bool.true_and]
    rw [sweepFrom, hnone]

/-- The sweeps behind it find nothing. -/
theorem round_eq (rest : List (TokenKind × Bool)) :
    ∃ done, ctx.round ⟨true, kind.token content, []⟩ ((kind, true) :: rest)
      = (ctx.read kind true content).map fun put =>
          ⟨done, put, ctx.keepFound kind [] content⟩ := by
  obtain ⟨done, hsweep⟩ := h.sweep_eq
  have hkeep : Entries.putAll [] (ctx.keepFound kind [] content) = ctx.keepFound kind [] content := by
    unfold keepFound
    cases ctx.found? kind content <;> rfl
  refine ⟨done, ?_⟩
  rw [round, hsweep]
  cases hread : ctx.read kind true content with
  | error e => rfl
  | ok put =>
    have hplain := dollar_not_mem_read h.value hread
    simp only [Except.map, ok_bind, Bool.true_and, hkeep]
    exact round_of_none fun p _ => first?_eq_none_of_not_mem hplain

theorem settleSweeps_eq (rest : List (TokenKind × Bool)) :
    ctx.settleSweeps ((kind, true) :: rest) ⟨kind.token content, []⟩
      = (ctx.read kind true content).map fun put => ⟨put, ctx.keepFound kind [] content⟩ := by
  obtain ⟨done, hround⟩ := h.round_eq rest
  cases hread : ctx.read kind true content with
  | error e =>
    rw [hread] at hround
    exact settleSweeps_of_round_error hround h.limit_ne_zero
  | ok put =>
    rw [hread] at hround
    have hplain := dollar_not_mem_read h.value hread
    exact settleSweeps_of_round (s := ⟨done, put, ctx.keepFound kind [] content⟩) hround
      (fun p _ => first?_eq_none_of_not_mem hplain) h.limit

/-- The substitution of a header token or a call is what the token is read as. -/
theorem substitute_token :
    ctx.substitute (kind.token content)
      = (ctx.read kind true content).map fun put =>
          .single ⟨put, ctx.keepFound kind [] content⟩ := by
  have hother : ∀ other, other ≠ kind → first? other (kind.token content) = none := by
    intro other hne
    rw [first?_token h.isContent, if_neg (Ne.symm hne)]
  have hplain : ∀ put, ctx.read kind true content = .ok put → ∀ other, first? other put = none :=
    fun put hread other => first?_eq_none_of_not_mem (dollar_not_mem_read h.value hread)
  rcases h.takes with rfl | rfl
  · -- A header token is read in the first phase.
    have hsettled : ctx.settleSweeps variableSweeps ⟨TokenKind.header.token content, []⟩ = _ :=
      h.settleSweeps_eq _
    cases hread : ctx.read .header true content with
    | error e =>
      rw [hread] at hsettled
      exact substitute_of_settleSweeps_error hsettled
    | ok put =>
      rw [hread] at hsettled
      exact substitute_of_settled hsettled
        (settleSweeps_of_none (fun p _ => hplain put hread p.1) h.limit_ne_zero) (hplain put hread .loop)
  · -- A call is read in the second one.
    have hsettled : ctx.settleSweeps variableSweeps ⟨TokenKind.function.token content, []⟩
        = .ok ⟨TokenKind.function.token content, []⟩ := by
      refine settleSweeps_of_none (fun p hp => hother p.1 ?_) h.limit_ne_zero
      revert p
      decide
    have hcalled : ctx.settleSweeps callSweeps ⟨TokenKind.function.token content, []⟩ = _ :=
      h.settleSweeps_eq _
    cases hread : ctx.read .function true content with
    | error e =>
      rw [hread] at hcalled
      rw [Context.substitute, hsettled, ok_bind, hcalled]
      rfl
    | ok put =>
      rw [hread] at hcalled
      exact substitute_of_settled hsettled hcalled (hplain put hread .loop)

end ReadsToken

end Context

/-! ## The whole content -/

variable {kind : TokenKind} {content : Text}

/-- An outermost substitution reads a token whose value has no `$`. -/
theorem readsToken_outermost (hkind : TakesArguments kind) (hcontent : Piece.IsContent content)
    {services : Services} (hlimit : 2 ≤ services.limit) (source : Source) (expand : Bool)
    (hvalue : ∀ value, answer services kind (nameAndWidth content).1 = .ok value → '$' ∉ value) :
    (Context.outermost source services expand).ReadsToken kind content where
  takes := hkind
  isContent := hcontent
  settle _ h := settle_of_not_mem h
  limit := hlimit
  value value hfound := by
    rw [Context.found?, Context.resolve_eq_answer hkind] at hfound
    refine hvalue value ?_
    change (Except.map some (answer services kind _)).toOption.join = some value at hfound
    cases hanswer : answer services kind (nameAndWidth content).1 with
    | error e =>
      rw [hanswer] at hfound
      cases hfound
    | ok own =>
      rw [hanswer] at hfound
      exact congrArg Except.ok (Option.some.inj hfound)

/-- Without a colon the whole content is the name of the token. -/
theorem yields_answer (hkind : TakesArguments kind) (hcontent : Piece.IsContent content)
    (hcolon : ':' ∉ content) {services : Services}
    (hsearch : services.searchFault? (kind.token content) = none) (hlimit : 2 ≤ services.limit)
    (source : Source) (expand : Bool)
    (hvalue : ∀ value, answer services kind content = .ok value → '$' ∉ value) :
    Yields (substitute source services expand (kind.token content))
      (answer services kind content) := by
  have hname := nameAndWidth_of_not_mem hcolon
  have hreads := readsToken_outermost hkind hcontent hlimit source expand (by rwa [hname])
  have hread : (Context.outermost source services expand).read kind true content
      = answer services kind content := by
    rw [Context.read, Context.resolve_eq_answer hkind, hname]
    show (Except.map some (answer services kind content) >>= _) = _
    cases hanswer : answer services kind content with
    | error e => rfl
    | ok value =>
      have hput : Context.readFound true content (some value) = .ok value :=
        Context.rendering_of_none (by rw [hname]) value
      simp only [Except.map, ok_bind, hput, Context.services_outermost,
        Context.checkSearch_of_none hsearch]
      rfl
  rw [substitute_eq_outermost, hreads.substitute_token, hread]
  cases answer services kind content with
  | error e => rfl
  | ok value => exact ⟨_, rfl⟩

/-- Services in which every header value and every result is one letter. -/
def letterServices (searchFault? : Text → Option Text) : Services where
  searchFault?
  functions := { textFunction? := fun _ => some fun _ => .ok ['x'] }
  headers := { value := fun _ _ => .ok ['x'], values := fun _ _ => .ok [['x']] }

theorem answer_letterServices (hkind : TakesArguments kind) (searchFault? : Text → Option Text)
    (content : Text) : answer (letterServices searchFault?) kind content = .ok ['x'] := by
  rcases hkind with rfl | rfl
  · rfl
  · rfl

/-- A header token gives the values that its whole content asks for, and a call the result with all
of its arguments, whatever the headers, the functions, the source and the limit are, if and only if
the content has no colon and a search can be built for the token. -/
theorem yields_answer_iff (hkind : TakesArguments kind) (hcontent : Piece.IsContent content)
    (searchFault? : Text → Option Text) :
    (∀ (services : Services) (source : Source) (expand : Bool),
      services.searchFault? = searchFault? → 2 ≤ services.limit →
      (∀ value, answer services kind content = .ok value → '$' ∉ value) →
        Yields (substitute source services expand (kind.token content))
          (answer services kind content))
      ↔ ':' ∉ content ∧ searchFault? (kind.token content) = none := by
  constructor
  · intro hyields
    -- A letter cannot be filled up to a width, so the token has none.
    have hletter := answer_letterServices hkind searchFault?
    have hplain : ∀ (c value : Text),
        answer (letterServices searchFault?) kind c = .ok value → '$' ∉ value := by
      intro c value hvalue
      rw [hletter] at hvalue
      obtain rfl := Except.ok.inj hvalue
      decide
    have hreads := readsToken_outermost hkind hcontent (by show 2 ≤ 100; decide) (.ofEntries [])
      false (hplain _)
    have hyield := hyields (letterServices searchFault?) (.ofEntries []) false rfl
      (by show 2 ≤ 100; decide) (hplain content)
    rw [hletter, substitute_eq_outermost, hreads.substitute_token] at hyield
    obtain ⟨keep, hresult⟩ := hyield
    obtain ⟨put, hread, -⟩ := map_eq_ok_iff.mp hresult
    obtain ⟨found, hfound, hput, hsearch⟩ := Context.read_eq_ok_iff.mp hread
    rw [Context.resolve_eq_answer hkind] at hfound
    change Except.map some (answer (letterServices searchFault?) kind _) = _ at hfound
    rw [hletter] at hfound
    obtain rfl := Except.ok.inj hfound
    have hwidth : (nameAndWidth content).2 = none := by
      cases hw : (nameAndWidth content).2 with
      | none => rfl
      | some w =>
        obtain ⟨-, z, hz⟩ := Context.exists_rendering_iff.mp ⟨put, hput⟩ w hw
        cases hz
    exact ⟨not_mem_of_width_eq_none hwidth, hsearch⟩
  · intro hgiven services source expand hservices hlimit hvalue
    obtain ⟨hcolon, hsearch⟩ := hgiven
    rw [← hservices] at hsearch
    exact yields_answer hkind hcontent hcolon hsearch hlimit source expand hvalue

/-- A function that counts its arguments. -/
def countServices : Services where
  functions := { textFunction? := fun _ => some fun args => .ok (Text.ofNat args.length) }

/-- The call has the three numbers of a range for arguments, but it is made with the first one. -/
theorem not_yields_answer_range :
    let content : Text := "count,1:3".toList
    callResult countServices content = .ok ['3']
      ∧ substitute (.ofEntries []) countServices false (TokenKind.function.token content)
        = .ok (.single ⟨['0', '0', '1'], [("count,1".toList, ['1'])]⟩)
      ∧ ¬ ∀ (services : Services) (source : Source) (expand : Bool),
        services.searchFault? = countServices.searchFault? → 2 ≤ services.limit →
        (∀ value, answer services .function content = .ok value → '$' ∉ value) →
          Yields (substitute source services expand (TokenKind.function.token content))
            (answer services .function content) := by
  intro content
  refine ⟨toOption_eq_some_iff.mp (by decide +kernel), toOption_eq_some_iff.mp (by decide +kernel),
    fun hyields => ?_⟩
  have hcontent : Piece.IsContent content := by decide
  exact absurd ((yields_answer_iff (.inr rfl) hcontent _).mp hyields).1 (by decide)

end Substitution

end WorkflowControl
