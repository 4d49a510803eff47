import WorkflowControl.Proofs.ItemList
import WorkflowControl.Proofs.Substitution.Padding
import WorkflowControl.Proofs.Substitution.Sweep
import WorkflowControl.Proofs.Substitution.Unroll
import WorkflowControl.Proofs.Token.Template
import WorkflowControl.Substitution

/-!
Substitution where no token is nested in another one. If that is so in the text and in all values,
and headers and calls give no `$`, then the text stays a template through all sweeps: the sweeps
over variables leave calls and markers, the sweep over calls leaves markers, and unrolling leaves
nothing. So the result has no `$` at all (`dollar_not_mem_of_substitute`).
-/

namespace WorkflowControl

open Text Token

/-- Whether a text is a template whose tokens are all good ones. -/
def MadeOf (good : TokenKind → Text → Prop) (t : Text) : Prop :=
  ∃ ps : List Piece, (∀ p ∈ ps, p.Plain)
    ∧ (∀ kind, ∀ content ∈ contents kind ps, good kind content) ∧ render ps = t

section

variable {good : TokenKind → Text → Prop} {kind : TokenKind} {t content : Text}

theorem madeOf_of_not_mem (h : '$' ∉ t) : MadeOf good t := by
  refine ⟨[.literal t], ?_, ?_, ?_⟩
  · intro p hp
    obtain rfl := List.mem_singleton.mp hp
    exact h
  · intro kind content hcontent
    cases hcontent
  · exact List.append_nil t

theorem MadeOf.mono {weaker : TokenKind → Text → Prop} (h : MadeOf good t)
    (hweaker : ∀ kind content, good kind content → weaker kind content) : MadeOf weaker t := by
  obtain ⟨ps, hplain, hgood, hrender⟩ := h
  exact ⟨ps, hplain, fun kind c hc => hweaker kind c (hgood kind c hc), hrender⟩

/-- A token that is found in a template is one of it. -/
theorem MadeOf.isContent (h : MadeOf good t) (hfirst : first? kind t = some content) :
    Piece.IsContent content ∧ good kind content := by
  obtain ⟨ps, hplain, hgood, rfl⟩ := h
  rw [first?_render hplain] at hfirst
  have hmem := List.mem_of_mem_head? hfirst
  obtain ⟨tag, hp⟩ := mem_contents_iff.mp hmem
  exact ⟨(hplain _ hp).2, hgood kind content hmem⟩

theorem MadeOf.replaceAll {value : Text} (h : MadeOf good t) (hvalue : MadeOf good value)
    (hclose : '}' ∉ content) : MadeOf good (Token.replaceAll kind content value t) := by
  obtain ⟨ps, hplain, hgood, rfl⟩ := h
  obtain ⟨vs, hvs, hvgood, rfl⟩ := hvalue
  refine ⟨putPieces kind content vs ps, ?_, ?_, (replaceAll_render_render hclose vs hplain).symm⟩
  · intro p hp
    rcases mem_putPieces hp with hp | ⟨hp, -⟩
    · exact hvs p hp
    · exact hplain p hp
  · intro k c hc
    obtain ⟨tag, hp⟩ := mem_contents_iff.mp hc
    rcases mem_putPieces hp with hp | ⟨hp, -⟩
    · exact hvgood k c (mem_contents_iff.mpr ⟨tag, hp⟩)
    · exact hgood k c (mem_contents_iff.mpr ⟨tag, hp⟩)

theorem madeOf_token (hcontent : Piece.IsContent content) (hgood : good kind content) :
    MadeOf good (kind.token content) := by
  refine ⟨[.ofKind kind content], ?_, ?_, ?_⟩
  · intro p hp
    obtain rfl := List.mem_singleton.mp hp
    exact Piece.plain_ofKind kind hcontent
  · intro k c hc
    obtain ⟨tag, hp⟩ := mem_contents_iff.mp hc
    obtain ⟨rfl, -, rfl⟩ := Piece.token.inj (List.mem_singleton.mp hp)
    exact hgood
  · exact List.append_nil _

end

/-- Whether a text is a template with tokens of the allowed kinds only. -/
def FlatIn (allowed : TokenKind → Prop) (t : Text) : Prop :=
  ∃ ps : List Piece, (∀ p ∈ ps, p.Plain)
    ∧ (∀ kind, ∀ content ∈ contents kind ps, allowed kind) ∧ render ps = t

/-- Whether no token of a text is nested in another one. -/
def Flat (t : Text) : Prop := FlatIn (fun _ => True) t

section

variable {allowed : TokenKind → Prop} {kind : TokenKind} {t content : Text}

theorem flatIn_of_not_mem (h : '$' ∉ t) : FlatIn allowed t := madeOf_of_not_mem h

theorem FlatIn.mono {weaker : TokenKind → Prop} (h : FlatIn allowed t)
    (hweaker : ∀ kind, allowed kind → weaker kind) : FlatIn weaker t :=
  MadeOf.mono h fun kind _ => hweaker kind

/-- A template without tokens has no `$`. -/
theorem FlatIn.dollar_not_mem (h : FlatIn allowed t) (hnone : ∀ kind, ¬ allowed kind) :
    '$' ∉ t := by
  obtain ⟨ps, hplain, hkinds, rfl⟩ := h
  intro hmem
  obtain ⟨p, hp, hdollar⟩ := List.mem_flatMap.mp hmem
  cases p with
  | literal text => exact hplain _ hp hdollar
  | token kind tag content =>
    exact hnone kind (hkinds kind content (mem_contents_iff.mpr ⟨tag, hp⟩))

theorem FlatIn.isContent (h : FlatIn allowed t) (hfirst : first? kind t = some content) :
    Piece.IsContent content ∧ allowed kind := MadeOf.isContent h hfirst

/-- A template in which no token of a kind is found has none. -/
theorem FlatIn.without (h : FlatIn allowed t) (hnone : first? kind t = none) :
    FlatIn (fun k => allowed k ∧ k ≠ kind) t := by
  obtain ⟨ps, hplain, hkinds, rfl⟩ := h
  rw [first?_render hplain, List.head?_eq_none_iff] at hnone
  refine ⟨ps, hplain, fun k c hc => ⟨hkinds k c hc, ?_⟩, rfl⟩
  intro heq
  subst heq
  rw [hnone] at hc
  cases hc

theorem FlatIn.replaceAll {value : Text} (h : FlatIn allowed t) (hvalue : FlatIn allowed value)
    (hclose : '}' ∉ content) : FlatIn allowed (Token.replaceAll kind content value t) :=
  MadeOf.replaceAll h hvalue hclose

end

namespace Substitution

open Outcome

/-- Whether headers and calls give no `$`. -/
structure PlainServices (services : Services) : Prop where
  headers : ∀ path keys values, services.headers.values path keys = .ok values →
    ∀ value ∈ values, '$' ∉ value
  functions : ∀ name args value, services.functions.callText name args = .ok value → '$' ∉ value

/-- Whether a search can be built for each token of a template, as it can for any literal text that
is not too long for the matcher. -/
def FindsTokens (services : Services) (ps : List Piece) : Prop :=
  ∀ kind, ∀ content ∈ contents kind ps, services.searchFault? (kind.token content) = none

theorem dollar_not_mem_joinWith {ts : List Text} (h : ∀ t ∈ ts, '$' ∉ t) :
    '$' ∉ joinWith [','] ts := by
  induction ts with
  | nil => exact List.not_mem_nil
  | cons t ts ih =>
    cases ts with
    | nil => exact h t (by simp)
    | cons u ts =>
      have hrest := ih fun v hv => h v (List.mem_cons_of_mem _ hv)
      have hfirst := h t (by simp)
      show '$' ∉ t ++ [','] ++ joinWith [','] (u :: ts)
      simp only [List.mem_append, not_or]
      exact ⟨⟨hfirst, by decide⟩, hrest⟩

theorem PlainServices.headerValues {services : Services} (h : PlainServices services)
    {content value : Text} (hvalue : headerValues services content = .ok value) : '$' ∉ value := by
  obtain ⟨values, hvalues, rfl⟩ := map_eq_ok_iff.mp hvalue
  unfold HeaderSource.read at hvalues
  cases hread : services.headers.values ((ItemList.split content ',').head?.getD [])
      (ItemList.split content ',').tail with
  | error e =>
    rw [hread] at hvalues
    cases hvalues
  | ok found =>
    rw [hread] at hvalues
    obtain rfl := Except.ok.inj hvalues
    exact dollar_not_mem_joinWith (h.headers _ _ found hread)

/-- Whether the values that a context draws on nest no token, and settle to texts without `$`. -/
structure Context.IsFlat (ctx : Context) : Prop where
  source : ∀ name value, ctx.source name = .ok (some value) → Flat value
  services : PlainServices ctx.services
  settle : ∀ value settled, Flat value → ctx.settle value = .ok settled → '$' ∉ settled

namespace Context

variable {ctx : Context} {kind : TokenKind} {required : Bool} {allowed : TokenKind → Prop}

/-- Whether a kind is one of a variable. -/
def IsVariable (kind : TokenKind) : Prop := kind = .required ∨ kind = .optional

theorem resolve_of_isVariable (hkind : IsVariable kind) (name : Text) :
    ctx.resolve kind name = ctx.source name := by
  rcases hkind with rfl | rfl <;> rfl

theorem isVariable_of_defers {value : Text} (h : ctx.defers kind value = true) :
    IsVariable kind := by
  unfold defers at h
  simp only [Bool.and_eq_true, Bool.or_eq_true, beq_iff_eq] at h
  exact h.1.1

/-- What is put in for a token is a template if the value is one, or a marker or a number. -/
theorem madeOf_replacement {good : TokenKind → Text → Prop} {content value put : Text}
    {keep keep' : Entries Text} (hcontent : Piece.IsContent content) (hvalue : MadeOf good value)
    (hmarker : ctx.defers kind value = true → good .loop content)
    (hput : ctx.replacement kind content value keep = .ok (put, keep')) : MadeOf good put := by
  rcases replacement_eq_ok hput with ⟨hdefers, rfl, -⟩ | ⟨-, hplain | hpadded⟩
  · exact madeOf_token hcontent (hmarker hdefers)
  · rw [hplain.2.1]
    exact hvalue
  · obtain ⟨w, n, settled, -, -, -, hdigits, -⟩ := hpadded
    exact madeOf_of_not_mem (dollar_not_mem_padded hdigits)

/-- What is put in for a token of a flat text has no `$`, unless it is the token of a variable. -/
theorem IsFlat.flatIn_replacement (h : ctx.IsFlat) {content value put : Text}
    {keep keep' : Entries Text} (hcontent : Piece.IsContent content)
    (hvalue : ctx.resolve kind (nameAndWidth content).1 = .ok (some value))
    (hput : ctx.replacement kind content value keep = .ok (put, keep'))
    (hvariable : IsVariable kind → ∀ k, allowed k) (hkind : kind ≠ .loop) : FlatIn allowed put := by
  -- Only the value of a variable can have tokens, and they are not nested.
  have hflat : FlatIn allowed value ∧ Flat value := by
    by_cases hvar : IsVariable kind
    · rw [resolve_of_isVariable hvar] at hvalue
      have hsource := h.source _ value hvalue
      exact ⟨hsource.mono fun k _ => hvariable hvar k, hsource⟩
    · have hnot : '$' ∉ value := by
        cases kind with
        | required => exact absurd (.inl rfl) hvar
        | optional => exact absurd (.inr rfl) hvar
        | header =>
          obtain ⟨found, hfound, heq⟩ := map_eq_ok_iff.mp hvalue
          obtain rfl := Option.some.inj heq
          exact h.services.headerValues hfound
        | function =>
          obtain ⟨found, hfound, heq⟩ := map_eq_ok_iff.mp hvalue
          obtain rfl := Option.some.inj heq
          exact h.services.functions _ _ _ hfound
        | loop => exact absurd rfl hkind
      exact ⟨flatIn_of_not_mem hnot, flatIn_of_not_mem hnot⟩
  exact madeOf_replacement hcontent hflat.1 (fun hdefers => hvariable (isVariable_of_defers hdefers) _)
    hput

/-- A sweep keeps a text flat and leaves no token of its kind. If it resolved nothing, it only took
tokens away. -/
theorem IsFlat.sweep (h : ctx.IsFlat) {t : Text} {swept : Progress} (hkind : kind ≠ .loop)
    (hvariable : IsVariable kind → ∀ k, allowed k) (ht : FlatIn allowed t)
    (hok : ctx.sweep kind required t = .ok swept) :
    FlatIn allowed swept.text := by
  refine (sweepFrom_keeps (P := fun s => FlatIn allowed s.text) ?_ ht hok).1
  intro content s s' hfirst hs hstep
  obtain ⟨hcontent, -⟩ := hs.isContent hfirst
  rcases replaceToken_eq_ok hstep with ⟨value, put, keep, hvalue, hput, rfl⟩ | ⟨-, -, rfl⟩
  · exact hs.replaceAll (h.flatIn_replacement hcontent hvalue hput hvariable hkind) hcontent.2.2
  · exact hs.replaceAll (flatIn_of_not_mem List.not_mem_nil) hcontent.2.2

/-- A sweep that resolved nothing only takes tokens out of a flat text, all those of its kind. -/
theorem flatIn_of_sweep_done {t : Text} {swept : Progress} (ht : FlatIn allowed t)
    (hok : ctx.sweep kind required t = .ok swept) (hdone : swept.done = true) :
    FlatIn (fun k => allowed k ∧ k ≠ kind) swept.text := by
  obtain ⟨hflat, hnone⟩ := sweepFrom_keeps (P := fun s => s.done = true → FlatIn allowed s.text)
    (fun content s s' hfirst hs hstep => by
      rcases replaceToken_eq_ok hstep with ⟨value, put, keep, -, -, rfl⟩ | ⟨-, -, rfl⟩
      · intro hfalse
        cases hfalse
      · intro htrue
        have hflat := hs htrue
        exact hflat.replaceAll (flatIn_of_not_mem List.not_mem_nil) (hflat.isContent hfirst).1.2.2)
    (fun _ => ht) hok
  exact (hflat hdone).without hnone

/-- A round that resolved nothing leaves no token of the kinds that it sweeps. -/
theorem flatIn_of_round_done {sweeps : List (TokenKind × Bool)} {s s' : Progress}
    (hs : FlatIn allowed s.text) (hok : ctx.round s sweeps = .ok s') (hdone : s'.done = true) :
    FlatIn (fun k => allowed k ∧ ∀ p ∈ sweeps, k ≠ p.1) s'.text := by
  induction sweeps generalizing s allowed with
  | nil =>
    obtain rfl := Except.ok.inj hok
    exact hs.mono fun k hk => ⟨hk, fun p hp => absurd hp List.not_mem_nil⟩
  | cons p rest ih =>
    obtain ⟨swept, hswept, hrest⟩ := round_cons_eq_ok hok
    obtain ⟨-, hsweptDone⟩ := Bool.and_eq_true_iff.mp (done_of_round hrest hdone)
    have hnext := flatIn_of_sweep_done hs hswept hsweptDone
    have hothers := ih (s := ⟨s.done && swept.done, swept.text, _⟩) hnext hrest
    refine hothers.mono fun k ⟨⟨hk, hne⟩, hothers⟩ => ⟨hk, fun q hq => ?_⟩
    rcases List.mem_cons.mp hq with rfl | hq
    · exact hne
    · exact hothers q hq

/-- Rounds of sweeps keep a text flat and leave no token of the kinds that they sweep. -/
theorem IsFlat.settleSweeps (h : ctx.IsFlat) {sweeps : List (TokenKind × Bool)}
    {branch final : Branch} (hbranch : FlatIn allowed branch.value)
    (hsweeps : ∀ p ∈ sweeps, p.1 ≠ .loop ∧ (IsVariable p.1 → ∀ k, allowed k))
    (hok : ctx.settleSweeps sweeps branch = .ok final) :
    FlatIn (fun k => allowed k ∧ ∀ p ∈ sweeps, k ≠ p.1) final.value := by
  have hround : ∀ (branch : Branch) (s : Progress), FlatIn allowed branch.value →
      ctx.round ⟨true, branch.value, branch.keep⟩ sweeps = .ok s → FlatIn allowed s.text := by
    intro branch s hflat hs
    refine round_keeps (P := fun s => FlatIn allowed s.text) ?_ hflat hs
    intro p hp s swept hs hswept
    have hflat : FlatIn allowed swept.text :=
      h.sweep (hsweeps p hp).1 (hsweeps p hp).2 hs hswept
    exact hflat
  obtain ⟨-, last, hlast, hdone⟩ :=
    settleFrom_keeps (P := fun b => FlatIn allowed b.value) hround hbranch hok
  exact flatIn_of_round_done hlast hdone rfl

/-- Whether the list that the marker of a content stands for has no `$`. -/
def PlainList (ctx : Context) (content : Text) : Prop :=
  ∀ raw, ctx.markerList content = .ok raw → '$' ∉ raw

/-- Whether the lists that markers stand for have no `$`. -/
def PlainLists (ctx : Context) : Prop := ∀ content, ctx.PlainList content

theorem IsFlat.plainLists (h : ctx.IsFlat) : ctx.PlainLists := by
  intro content raw hraw
  unfold markerList at hraw
  obtain ⟨found, hfound, hraw⟩ := bind_eq_ok_iff.mp hraw
  cases found with
  | none => cases hraw
  | some value => exact h.settle value raw (h.source _ value hfound) hraw

theorem dollar_not_mem_rendering {content item rendered : Text} (h : '$' ∉ item)
    (hrendered : rendering content item = .ok rendered) : '$' ∉ rendered := by
  obtain ⟨width?, -, hrendered⟩ := bind_eq_ok_iff.mp hrendered
  unfold renderItem at hrendered
  split at hrendered
  · exact dollar_not_mem_padded hrendered
  · obtain rfl := Except.ok.inj hrendered
    exact h

/-- Unrolling a flat text takes the markers out and brings no token in. -/
theorem flatIn_of_unrolls (h : ctx.PlainLists) {branch final : Branch}
    (hbranch : FlatIn allowed branch.value) (hunrolls : ctx.Unrolls branch final) :
    FlatIn (fun k => allowed k ∧ k ≠ .loop) final.value := by
  induction hunrolls with
  | closed hnone => exact hbranch.without hnone
  | @choose branch final content options choice hfirst hoptions hchoice _ ih =>
    obtain ⟨raw, hraw, -, hmem⟩ := choices_eq_ok hoptions
    obtain ⟨item, hitem, rendered, hrendered, rfl⟩ := (hmem choice).mp hchoice
    have hnot := dollar_not_mem_rendering (ItemList.dollar_not_mem_item (h content raw hraw) hitem)
      hrendered
    exact ih (hbranch.replaceAll (flatIn_of_not_mem hnot) (hbranch.isContent hfirst).1.2.2)

/-- The text with variables and then calls settled, before markers are unrolled. -/
def settleText (ctx : Context) (text : Text) : Except Error Branch := do
  let settled ← ctx.settleSweeps variableSweeps ⟨text, []⟩
  ctx.settleSweeps callSweeps settled

/-- The branches of a result are what the settled text unrolls into. -/
theorem substitute_eq_ok {text : Text} {result : Substitution.Result}
    (h : ctx.substitute text = .ok result) :
    ∃ settled, ctx.settleText text = .ok settled
      ∧ ∀ b, b ∈ result.branches ↔ ctx.Unrolls settled b := by
  unfold Context.substitute at h
  obtain ⟨settled, hsettled, h⟩ := bind_eq_ok_iff.mp h
  obtain ⟨called, hcalled, h⟩ := bind_eq_ok_iff.mp h
  refine ⟨called, bind_eq_ok_iff.mpr ⟨settled, hsettled, hcalled⟩, ?_⟩
  split at h
  · obtain ⟨branches, hbranches, rfl⟩ := map_eq_ok_iff.mp h
    intro b
    exact mem_unroll_iff hbranches
  · rename_i hmarker
    obtain rfl := Except.ok.inj h
    have hnone := hasToken_eq_false_iff.mp (eq_false_of_ne_true hmarker)
    intro b
    rw [unrolls_of_none hnone]
    exact List.mem_singleton

/-- Substitution in a flat text leaves no `$`. -/
theorem IsFlat.substitute (h : ctx.IsFlat) {text : Text} (htext : Flat text)
    {result : Substitution.Result} (hok : ctx.substitute text = .ok result) :
    ∀ b ∈ result.branches, '$' ∉ b.value := by
  obtain ⟨called, hcalled, hmem⟩ := substitute_eq_ok hok
  obtain ⟨settled, hsettled, hcalled⟩ := bind_eq_ok_iff.mp hcalled
  have hbranch : FlatIn (fun _ => True) (Branch.mk text []).value := htext
  have hvariables := h.settleSweeps hbranch
    (fun p hp => ⟨by revert p; decide, fun _ _ => trivial⟩) hsettled
  have hcalls := h.settleSweeps hvariables
    (fun p hp => by
      obtain rfl := List.mem_singleton.mp hp
      exact ⟨by decide, fun hvar => by rcases hvar with hvar | hvar <;> cases hvar⟩) hcalled
  -- Headers, variables and calls are gone, so only markers can be left, and unrolling fills them.
  intro b hb
  have hfinal := flatIn_of_unrolls h.plainLists hcalls ((hmem b).mp hb)
  refine hfinal.dollar_not_mem fun k ⟨⟨⟨_, hvars⟩, hcalls⟩, hloop⟩ => ?_
  cases k with
  | required => exact hvars (.required, true) (by decide) rfl
  | optional => exact hvars (.optional, false) (by decide) rfl
  | header => exact hvars (.header, true) (by decide) rfl
  | function => exact hcalls (.function, true) (by decide) rfl
  | loop => exact hloop rfl

end Context

/-- A value without `$` is settled. -/
theorem settleWith_of_not_mem {run : Text → Except Error Result} {value : Text} (h : '$' ∉ value) :
    settleWith run value = .ok value := by
  have hcontains : value.contains '$' = false := by simpa using h
  rw [settleWith, hcontains]
  rfl

/-- A value that settles to one text settles to a branch of its substitution, or to itself if it has
no `$`. -/
theorem settleWith_eq_ok {run : Text → Except Error Result} {value settled : Text}
    (h : settleWith run value = .ok settled) :
    '$' ∉ value ∧ settled = value
      ∨ ∃ result, run value = .ok result ∧ ∃ b ∈ result.branches, b.value = settled := by
  unfold settleWith at h
  split at h
  · obtain ⟨result, hresult, hone⟩ := bind_eq_ok_iff.mp h
    refine .inr ⟨result, hresult, ?_⟩
    unfold Result.one at hone
    split at hone
    · rename_i b
      exact ⟨b, List.mem_singleton.mpr rfl, Except.ok.inj hone⟩
    · rename_i b
      exact ⟨b, List.mem_singleton.mpr rfl, Except.ok.inj hone⟩
    · cases hone
  · rename_i hdollar
    refine .inl ⟨?_, (Except.ok.inj h).symm⟩
    simpa using hdollar

variable {source : Source} {services : Services}

/-- Substitution at any depth leaves no `$` if neither the text nor any value nests tokens. -/
theorem dollar_not_mem_of_within
    (hsource : ∀ name value, source name = .ok (some value) → Flat value)
    (hservices : PlainServices services) (depth : Nat) (expand : Bool) {text : Text}
    (htext : Flat text) {result : Result}
    (hok : within source services depth expand text = .ok result) :
    ∀ b ∈ result.branches, '$' ∉ b.value := by
  induction depth generalizing expand text result with
  | zero => cases hok
  | succ depth ih =>
    unfold within at hok
    refine Context.IsFlat.substitute ⟨hsource, hservices, ?_⟩ htext hok
    intro value settled hvalue hsettled
    rcases settleWith_eq_ok hsettled with ⟨hnot, rfl⟩ | ⟨inner, hinner, b, hb, rfl⟩
    · exact hnot
    · exact ih false hvalue hinner b hb

theorem dollar_not_mem_of_substitute
    (hsource : ∀ name value, source name = .ok (some value) → Flat value)
    (hservices : PlainServices services) {expand : Bool} {text : Text} (htext : Flat text)
    {result : Result} (hok : substitute source services expand text = .ok result) :
    ∀ b ∈ result.branches, '$' ∉ b.value :=
  dollar_not_mem_of_within hsource hservices _ expand htext hok

end Substitution

end WorkflowControl
