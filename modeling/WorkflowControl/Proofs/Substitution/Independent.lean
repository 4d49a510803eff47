import WorkflowControl.Proofs.Substitution.VariableText

/-!
Texts of names, and texts of calls. A token of such a text is replaced together with all tokens that
differ from it in case at most, so what it gives is the value of the first of them, and not always
its own (`givesOwn_iff_not_alike`). A source that tells names in different case apart is asked for
one of them only.
-/

namespace WorkflowControl

open Outcome Text Token

/-- Whether a piece is a literal without `$`, or a token of a kind without a width. -/
def Piece.IsName (kind : TokenKind) : Piece → Prop
  | .literal text => '$' ∉ text
  | .token k tag content => k = kind ∧ Alike kind.tag tag ∧ Piece.IsContent content ∧ ':' ∉ content

instance (kind : TokenKind) : DecidablePred (Piece.IsName kind)
  | .literal text => inferInstanceAs (Decidable ('$' ∉ text))
  | .token k tag content => inferInstanceAs (Decidable (k = kind ∧ Alike kind.tag tag
      ∧ Piece.IsContent content ∧ ':' ∉ content))

theorem Piece.IsName.plain {kind : TokenKind} {p : Piece} (h : p.IsName kind) : p.Plain := by
  cases p with
  | literal text => exact h
  | token k tag content =>
    obtain ⟨rfl, htag, hcontent, -⟩ := h
    exact ⟨htag, hcontent⟩

/-- A text of names of one kind has no token of another kind. -/
theorem contents_eq_nil_of_isName {kind other : TokenKind} {ps : List Piece}
    (h : ∀ p ∈ ps, p.IsName kind) (hother : other ≠ kind) : contents other ps = [] := by
  refine List.eq_nil_iff_forall_not_mem.mpr fun c hc => ?_
  obtain ⟨tag, hp⟩ := mem_contents_iff.mp hc
  exact hother (h _ hp).1

theorem first?_eq_none_of_isName {kind other : TokenKind} {ps : List Piece}
    (h : ∀ p ∈ ps, p.IsName kind) (hother : other ≠ kind) : first? other (render ps) = none := by
  rw [first?_render fun p hp => (h p hp).plain, contents_eq_nil_of_isName h hother]
  rfl

/-- A literal as it is, and a token as the value of its content. -/
def Piece.valued (value? : Text → Option Text) : Piece → Text
  | .literal text => text
  | .token _ _ content => (value? content).getD []

namespace Substitution

/-- A text of tokens of one kind that stand for texts without `$`, no more distinct ones than the
limit. -/
structure IsNameText (kind : TokenKind) (value? : Text → Option Text) (limit : Nat)
    (ps : List Piece) : Prop where
  names : ∀ p ∈ ps, p.IsName kind
  values : ∀ c ∈ contents kind ps, ∃ value, value? c = some value ∧ '$' ∉ value
  limit : (distinctContents (contents kind ps)).length ≤ limit

/-- Whether a substitution gives one branch in which each token is replaced by its own value, and in
which that value is kept for it. -/
def GivesOwn (kind : TokenKind) (value? : Text → Option Text) (ps : List Piece)
    (result : Except Error Result) : Prop :=
  ∃ b, result = .ok (.single b) ∧ b.value = ps.flatMap (Piece.valued value?)
    ∧ ∀ c ∈ contents kind ps, b.keep.get? c = value? c

namespace IsNameText

variable {kind : TokenKind} {value? : Text → Option Text} {limit : Nat} {ps : List Piece} {c : Text}

theorem plain (h : IsNameText kind value? limit ps) : ∀ p ∈ ps, p.Plain :=
  fun p hp => (h.names p hp).plain

theorem nameAndWidth_eq (h : IsNameText kind value? limit ps) (hc : c ∈ contents kind ps) :
    nameAndWidth c = (c, none) := by
  obtain ⟨tag, hp⟩ := mem_contents_iff.mp hc
  obtain ⟨-, -, -, hcolon⟩ := h.names _ hp
  exact nameAndWidth_of_not_mem hcolon

end IsNameText

namespace Context

variable {ctx : Context} {kind : TokenKind} {required : Bool} {value? : Text → Option Text}
  {limit : Nat} {ps : List Piece} {c : Text}

/-- The branch that a sweep over a template gives. -/
def swept (ctx : Context) (kind : TokenKind) (ps : List Piece) : Branch :=
  ⟨render (ctx.readPieces kind true ps), Entries.putAll [] (ctx.keepRead kind ps)⟩

/-- What the names of a text stand for in a substitution. -/
structure Names (ctx : Context) (kind : TokenKind) (value? : Text → Option Text) (ps : List Piece) :
    Prop where
  text : IsNameText kind value? ctx.services.limit ps
  resolve_eq : ∀ c ∈ contents kind ps, ctx.resolve kind c = .ok (value? c)

namespace Names

/-- A name is read as its value. -/
theorem read_eq (h : ctx.Names kind value? ps) (hc : c ∈ contents kind ps) :
    ctx.read kind required c
      = (checkSearch ctx.services kind c).map fun _ => (value? c).getD [] := by
  obtain ⟨value, hvalue, -⟩ := h.text.values c hc
  rw [read, h.text.nameAndWidth_eq hc, h.resolve_eq c hc, hvalue]
  show (readFound required c (some value) >>= _) = _
  rw [readFound, rendering_of_none (by rw [h.text.nameAndWidth_eq hc])]
  cases checkSearch ctx.services kind c with
  | error e => rfl
  | ok _ => rfl

theorem found?_eq (h : ctx.Names kind value? ps) (hc : c ∈ contents kind ps) :
    ctx.found? kind c = value? c := by
  rw [found?, h.text.nameAndWidth_eq hc, h.resolve_eq c hc]
  cases value? c <;> rfl

theorem fault?_eq_none_iff (h : ctx.Names kind value? ps) (hc : c ∈ contents kind ps) :
    ctx.fault? kind required c = none ↔ ctx.services.searchFault? (kind.token c) = none := by
  rw [Context.fault?_eq_none_iff, h.read_eq hc, ← checkSearch_eq_ok_iff]
  cases checkSearch ctx.services kind c with
  | error e =>
    constructor
    · intro hgiven
      obtain ⟨put, hput⟩ := hgiven
      cases hput
    · intro hok
      cases hok
  | ok _ => exact ⟨fun _ => rfl, fun _ => ⟨_, rfl⟩⟩

theorem readText_eq (h : ctx.Names kind value? ps) (hc : c ∈ contents kind ps)
    (hsearch : ctx.services.searchFault? (kind.token c) = none) :
    ctx.readText kind required c = (value? c).getD [] := by
  rw [readText, h.read_eq hc, checkSearch_of_none hsearch]
  rfl

theorem readsPlain (h : ctx.Names kind value? ps) (other : TokenKind) :
    ctx.ReadsPlain other ps where
  plain := h.text.plain
  values c hc value hvalue := by
    by_cases hother : other = kind
    · subst hother
      obtain ⟨own, hown, hplain⟩ := h.text.values c hc
      rw [h.found?_eq hc, hown] at hvalue
      exact Option.some.inj hvalue ▸ hplain
    · rw [contents_eq_nil_of_isName h.text.names hother] at hc
      cases hc

theorem sweepFault?_eq_none_iff (h : ctx.Names kind value? ps) :
    ctx.sweepFault? kind required ps = none
      ↔ ∀ c ∈ distinctContents (contents kind ps),
        ctx.services.searchFault? (kind.token c) = none := by
  rw [sweepFault?, List.findSome?_eq_none_iff]
  exact forall₂_congr fun c hc => h.fault?_eq_none_iff (mem_of_mem_distinctContents _ hc)

/-- Each token is read as the value of the first one that is alike. -/
theorem value_swept (h : ctx.Names kind value? ps)
    (hsearch : ∀ c ∈ distinctContents (contents kind ps),
        ctx.services.searchFault? (kind.token c) = none) :
    (ctx.swept kind ps).value
      = ps.flatMap (Piece.valued fun c => value? (firstAlike (contents kind ps) c)) := by
  rw [swept, readPieces, render, List.flatMap_map, List.flatMap_def, List.flatMap_def]
  refine congrArg List.flatten (List.map_congr_left fun p hp => ?_)
  cases p with
  | literal text => rfl
  | token k tag c =>
    obtain ⟨rfl, -⟩ := h.text.names _ hp
    obtain ⟨hfirst, -⟩ := firstAlike_spec _ (mem_contents_iff.mpr ⟨tag, hp⟩)
    rw [Piece.readWith, Piece.contentOf?, if_pos rfl]
    exact h.readText_eq (mem_of_mem_distinctContents _ hfirst) (hsearch _ hfirst)

/-- The values that are kept are those of the distinct names. -/
theorem get?_keepRead_eq_some_iff (h : ctx.Names kind value? ps) {value : Text} :
    (Entries.putAll [] (ctx.keepRead kind ps)).get? c = some value
      ↔ c ∈ distinctContents (contents kind ps) ∧ value? c = some value := by
  have hkept : ∀ {value}, (Entries.putAll [] (ctx.keepRead kind ps)).get? c = some value →
      c ∈ distinctContents (contents kind ps) ∧ value? c = some value := by
    intro value hget
    rcases Entries.mem_putAll (Entries.mem_of_get? hget) with hmem | hmem
    · cases hmem
    · obtain ⟨d, hd, hname, hfound⟩ := exists_of_mem_keepRead hmem
      have hin := mem_of_mem_distinctContents _ hd
      rw [h.text.nameAndWidth_eq hin] at hname
      obtain rfl : d = c := hname
      exact ⟨hd, (h.found?_eq hin).symm.trans hfound⟩
  refine ⟨hkept, fun hgiven => ?_⟩
  obtain ⟨hc, hvalue⟩ := hgiven
  have hin := mem_of_mem_distinctContents _ hc
  have hkey := mem_keys_keepRead hc (by rw [h.found?_eq hin, hvalue]; rfl)
  rw [h.text.nameAndWidth_eq hin] at hkey
  cases hget : (Entries.putAll [] (ctx.keepRead kind ps)).get? c with
  | none => exact absurd (Entries.mem_keys_putAll.mpr (.inr hkey)) (Entries.get?_eq_none_iff.mp hget)
  | some found => rw [← hvalue, (hkept hget).2]

/-- What a sweep over names gives, if a search can be built for each of them. -/
theorem exists_keep (h : ctx.Names kind value? ps) {result : Except Error Result}
    (hresult : result = okUnless (ctx.sweepFault? kind true ps) (.single (ctx.swept kind ps)))
    (hsearch : ∀ c ∈ contents kind ps, ctx.services.searchFault? (kind.token c) = none) :
    ∃ keep, result = .ok (.single
      ⟨ps.flatMap (Piece.valued fun c => value? (firstAlike (contents kind ps) c)), keep⟩) := by
  have hall : ∀ c ∈ distinctContents (contents kind ps),
        ctx.services.searchFault? (kind.token c) = none :=
    fun c hc => hsearch c (mem_of_mem_distinctContents _ hc)
  refine ⟨(ctx.swept kind ps).keep, ?_⟩
  rw [hresult, h.sweepFault?_eq_none_iff.mpr hall, ← h.value_swept hall]
  rfl

/-- Each name gives its own value in a sweep over names if and only if no other one is alike. -/
theorem givesOwn_iff (h : ctx.Names kind value? ps) {result : Except Error Result}
    (hresult : result = okUnless (ctx.sweepFault? kind true ps) (.single (ctx.swept kind ps))) :
    GivesOwn kind value? ps result
      ↔ (∀ c ∈ contents kind ps, ctx.services.searchFault? (kind.token c) = none)
      ∧ ∀ c ∈ contents kind ps, ∀ d ∈ contents kind ps, Alike c d → c = d := by
  rw [← forall_mem_distinctContents_iff]
  constructor
  · intro hgiven
    obtain ⟨b, hb, -, hkeep⟩ := hgiven
    cases hfault : ctx.sweepFault? kind true ps with
    | some e =>
      rw [hresult, hfault] at hb
      cases hb
    | none =>
      rw [hresult, hfault] at hb
      obtain rfl := Result.single.inj (Except.ok.inj hb)
      -- All names are kept, so all of them are distinct.
      have hdistinct : ∀ c ∈ contents kind ps, c ∈ distinctContents (contents kind ps) := by
        intro c hc
        obtain ⟨value, hvalue, -⟩ := h.text.values c hc
        exact (h.get?_keepRead_eq_some_iff.mp ((hkeep c hc).trans hvalue)).1
      exact ⟨fun c hc => h.sweepFault?_eq_none_iff.mp hfault c (hdistinct c hc), hdistinct⟩
  · intro hgiven
    obtain ⟨hsearch, hdistinct⟩ := hgiven
    have hall : ∀ c ∈ distinctContents (contents kind ps),
        ctx.services.searchFault? (kind.token c) = none :=
      fun c hc => hsearch c (mem_of_mem_distinctContents _ hc)
    rw [h.sweepFault?_eq_none_iff.mpr hall] at hresult
    refine ⟨_, hresult, ?_, fun c hc => ?_⟩
    · rw [h.value_swept hall, List.flatMap_def, List.flatMap_def]
      refine congrArg List.flatten (List.map_congr_left fun p hp => ?_)
      cases p with
      | literal text => rfl
      | token k tag c =>
        obtain ⟨rfl, -⟩ := h.text.names _ hp
        have hc : c ∈ contents k ps := mem_contents_iff.mpr ⟨tag, hp⟩
        rw [Piece.valued, firstAlike_of_mem_distinctContents _ (hdistinct c hc)]
        rfl
    · obtain ⟨value, hvalue, -⟩ := h.text.values c hc
      rw [hvalue]
      exact h.get?_keepRead_eq_some_iff.mpr ⟨hdistinct c hc, hvalue⟩

theorem first?_readPieces (h : ctx.Names kind value? ps) (other : TokenKind) :
    first? other (render (ctx.readPieces kind required ps)) = none := by
  rw [first?_render (h.readsPlain kind).plain_readPieces, contents_readPieces]
  split
  · rfl
  · rename_i hother
    rw [contents_eq_nil_of_isName h.text.names hother]
    rfl

/-- A text of variables is swept in the first phase. -/
theorem substitute_eq_of_required (h : ctx.Names .required value? ps) (hctx : ctx.PutsIn)
    (hlimit : 2 ≤ ctx.services.limit) :
    ctx.substitute (render ps)
      = okUnless (ctx.sweepFault? .required true ps) (.single (ctx.swept .required ps)) := by
  have hnil : ∀ other, other ≠ .required → contents other ps = [] :=
    fun other hother => contents_eq_nil_of_isName h.text.names hother
  have htext : ctx.IsVariableText ps := by
    refine ⟨fun other _ hother => hnil other hother, h.readsPlain, fun other => ?_⟩
    by_cases hother : other = .required
    · rw [hother]
      exact h.text.limit
    · rw [hnil other hother]
      exact Nat.zero_le _
  have hfault : ctx.variablesFault? ps = ctx.sweepFault? .required true ps := by
    rw [variablesFault?, sweepFault?, hnil .optional (by decide)]
    rfl
  have hread : ctx.readVariables ps = ctx.readPieces .required true ps := by
    rw [readVariables]
    refine congrArg (ctx.readPieces .required true) ?_
    exact map_readWith_of_contents_eq_nil (hnil .optional (by decide)) _
  have hkeep : ctx.keepVariables ps = Entries.putAll [] (ctx.keepRead .required ps) := by
    have hoptional : ctx.keepRead .optional ps = [] := by
      rw [keepRead, hnil .optional (by decide)]
      rfl
    rw [keepVariables, hoptional]
    rfl
  rw [hctx.substitute_variables htext hlimit, hfault, hread, hkeep]
  rfl

/-- A text of calls is swept in the second phase. -/
theorem substitute_eq_of_function (h : ctx.Names .function value? ps) (hctx : ctx.PutsIn)
    (hlimit : 2 ≤ ctx.services.limit) :
    ctx.substitute (render ps)
      = okUnless (ctx.sweepFault? .function true ps) (.single (ctx.swept .function ps)) := by
  have hpositive : ctx.services.limit ≠ 0 := Nat.ne_of_gt (Nat.lt_of_lt_of_le Nat.two_pos hlimit)
  have hvariables : ctx.settleSweeps variableSweeps ⟨render ps, []⟩ = .ok ⟨render ps, []⟩ := by
    refine settleSweeps_of_none (fun p hp => first?_eq_none_of_isName h.text.names ?_) hpositive
    revert p
    decide
  obtain ⟨done, hsweep⟩ : ∃ done, ctx.sweep .function true (render ps)
      = okUnless (ctx.sweepFault? .function true ps)
        ⟨done, render (ctx.readPieces .function true ps), ctx.keepRead .function ps⟩ :=
    hctx.sweep_eq (h.readsPlain .function) h.text.limit
  have hround : ctx.round ⟨true, render ps, []⟩ callSweeps
      = ctx.sweep .function true (render ps) >>= fun swept =>
        .ok ⟨true && swept.done, swept.text, Entries.putAll [] swept.keep⟩ := rfl
  rw [hsweep] at hround
  cases hfault : ctx.sweepFault? .function true ps with
  | some e =>
    rw [hfault] at hround
    have herror : ctx.settleSweeps callSweeps ⟨render ps, []⟩ = .error e :=
      settleSweeps_of_round_error hround hpositive
    rw [Context.substitute, hvariables]
    show ctx.settleSweeps callSweeps ⟨render ps, []⟩ >>= _ = _
    rw [herror]
    rfl
  | none =>
    rw [hfault] at hround
    exact substitute_of_settled hvariables
      (settleSweeps_of_round (s := ⟨true && done, render (ctx.readPieces .function true ps),
          Entries.putAll [] (ctx.keepRead .function ps)⟩)
        hround (fun p _ => h.first?_readPieces p.1) hlimit)
      (h.first?_readPieces .loop)

end Names

end Context

/-! ## Names and calls -/

/-- The result of the call in a content, if it has one. -/
def callValue? (services : Services) (content : Text) : Option Text :=
  (callResult services content).toOption

/-- A text of names over a map gives for each name the value that is stored under it, and a text of
calls gives for each call the result with its own arguments, if and only if a search can be built
for each token and no two tokens with different contents are alike. If the searches can be built,
each token gives the value of the first one that is alike. -/
theorem givesOwn_iff_not_alike {services : Services} (hlimit : 2 ≤ services.limit) :
    (∀ (entries : Entries Text) (ps : List Piece),
      IsNameText .required (fun c => entries.get? c) services.limit ps →
      (GivesOwn .required (fun c => entries.get? c) ps
          (substitute (.ofEntries entries) services false (render ps))
        ↔ (∀ c ∈ contents .required ps, services.searchFault? (TokenKind.required.token c) = none)
          ∧ ∀ c ∈ contents .required ps, ∀ d ∈ contents .required ps, Alike c d → c = d)
      ∧ ((∀ c ∈ contents .required ps, services.searchFault? (TokenKind.required.token c) = none) →
        ∃ keep, substitute (.ofEntries entries) services false (render ps) = .ok (.single
          ⟨ps.flatMap (Piece.valued fun c => entries.get? (firstAlike (contents .required ps) c)),
            keep⟩)))
    ∧ ∀ (source : Source) (ps : List Piece),
      IsNameText .function (callValue? services) services.limit ps →
      (GivesOwn .function (callValue? services) ps
          (substitute source services false (render ps))
        ↔ (∀ c ∈ contents .function ps, services.searchFault? (TokenKind.function.token c) = none)
          ∧ ∀ c ∈ contents .function ps, ∀ d ∈ contents .function ps, Alike c d → c = d)
      ∧ ((∀ c ∈ contents .function ps, services.searchFault? (TokenKind.function.token c) = none) →
        ∃ keep, substitute source services false (render ps) = .ok (.single
          ⟨ps.flatMap (Piece.valued fun c =>
            callValue? services (firstAlike (contents .function ps) c)), keep⟩)) := by
  constructor
  · intro entries ps h
    have hctx := Context.putsIn_outermost (.ofEntries entries) services
    have hnames : (Context.outermost (.ofEntries entries) services false).Names .required
        (fun c => entries.get? c) ps := ⟨h, fun c _ => rfl⟩
    have hresult := hnames.substitute_eq_of_required hctx hlimit
    exact ⟨hnames.givesOwn_iff hresult, hnames.exists_keep hresult⟩
  · intro source ps h
    have hctx := Context.putsIn_outermost source services
    have hnames : (Context.outermost source services false).Names .function
        (callValue? services) ps := by
      refine ⟨h, fun c hc => ?_⟩
      obtain ⟨value, hvalue, -⟩ := h.values c hc
      have hcall : callResult services c = .ok value := toOption_eq_some_iff.mp hvalue
      show (callResult services c).map some = _
      rw [hcall, hvalue]
      rfl
    have hresult := hnames.substitute_eq_of_function hctx hlimit
    exact ⟨hnames.givesOwn_iff hresult, hnames.exists_keep hresult⟩

/-- Two names that differ in case. -/
def twoNames : Entries Text := [(['A'], ['1']), (['a'], ['2'])]

def namesText : List Piece :=
  [.ofKind .required ['A'], .literal [' '], .ofKind .required ['a']]

/-- A function that gives its arguments. -/
def echoServices : Services where
  functions := { textFunction? := fun _ => some fun args => .ok args.flatten }

def callsText : List Piece :=
  [.ofKind .function ['e', ',', 'A'], .literal [' '], .ofKind .function ['e', ',', 'a']]

/-- The second name and the second call are replaced with the first one, which they are alike to. -/
theorem not_givesOwn_namesText :
    (substitute (.ofEntries twoNames) {} false (render namesText)
        = .ok (.single ⟨['1', ' ', '1'], [(['A'], ['1'])]⟩)
      ∧ ¬ GivesOwn .required (fun c => twoNames.get? c) namesText
        (substitute (.ofEntries twoNames) {} false (render namesText)))
    ∧ ∃ keep, substitute (.ofEntries []) echoServices false (render callsText)
        = .ok (.single ⟨['A', ' ', 'A'], keep⟩)
      ∧ ¬ GivesOwn .function (callValue? echoServices) callsText
        (substitute (.ofEntries []) echoServices false (render callsText)) := by
  have hnames : IsNameText .required (fun c => twoNames.get? c) ({} : Services).limit namesText := by
    refine ⟨by decide, fun c hc => ?_, by decide⟩
    have hmem : c = ['A'] ∨ c = ['a'] := by simpa using (show c ∈ [['A'], ['a']] from hc)
    rcases hmem with rfl | rfl
    · exact ⟨['1'], rfl, by decide⟩
    · exact ⟨['2'], rfl, by decide⟩
  have hcalls : IsNameText .function (callValue? echoServices) echoServices.limit callsText := by
    refine ⟨by decide, fun c hc => ?_, by decide⟩
    have hmem : c = ['e', ',', 'A'] ∨ c = ['e', ',', 'a'] := by
      simpa using (show c ∈ [['e', ',', 'A'], ['e', ',', 'a']] from hc)
    rcases hmem with rfl | rfl
    · exact ⟨['A'], rfl, by decide⟩
    · exact ⟨['a'], rfl, by decide⟩
  refine ⟨⟨rfl, fun hown => ?_⟩, ?_⟩
  · have hiff := ((givesOwn_iff_not_alike (by decide)).1 twoNames namesText hnames).1
    exact absurd ((hiff.mp hown).2 ['A'] (by decide) ['a'] (by decide) (by decide)) (by decide)
  · obtain ⟨hiff, hresult⟩ :=
      (givesOwn_iff_not_alike (by decide)).2 (.ofEntries []) callsText hcalls
    obtain ⟨keep, hkeep⟩ := hresult (by decide)
    refine ⟨keep, hkeep, fun hown => ?_⟩
    exact absurd ((hiff.mp hown).2 ['e', ',', 'A'] (by decide) ['e', ',', 'a'] (by decide)
      (by decide)) (by decide)

end Substitution

end WorkflowControl
