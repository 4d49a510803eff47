import WorkflowControl.Proofs.Entries
import WorkflowControl.Proofs.Substitution.Flat

/-!
Sweeps over a text of variables. If the literals of a text and the values of its variables have no
`$`, one sweep puts in what stands for each variable: its value, with zeros in front if the variable
has a width, or a marker if the value is a list. Nothing else changes the text before the markers
are unrolled (`settleText_render`), and the values that are kept on the way are the ones that were
put in.
-/

namespace WorkflowControl

open Text Token

/-- Whether a piece is a literal without `$`, or a required variable without capitals. -/
def Piece.IsSimple : Piece → Prop
  | .literal text => '$' ∉ text
  | .token kind tag content => kind = .required ∧ Alike kind.tag tag ∧ Piece.IsContent content
      ∧ IsFolded content

instance : DecidablePred Piece.IsSimple
  | .literal text => inferInstanceAs (Decidable ('$' ∉ text))
  | .token kind tag content => inferInstanceAs (Decidable (kind = .required ∧ Alike kind.tag tag
      ∧ Piece.IsContent content ∧ IsFolded content))

theorem Piece.IsSimple.plain {p : Piece} (h : p.IsSimple) : p.Plain := by
  cases p with
  | literal text => exact h
  | token kind tag content =>
    obtain ⟨-, htag, hcontent, -⟩ := h
    exact ⟨htag, hcontent⟩

namespace Substitution

open Outcome

/-- A text of simple pieces, with a value without `$` for each of its variables. -/
structure IsBound (source : Source) (ps : List Piece) : Prop where
  simple : ∀ p ∈ ps, p.IsSimple
  bound : ∀ content ∈ contents .required ps,
    ∃ value, source (nameAndWidth content).1 = .ok (some value) ∧ '$' ∉ value

/-- The value of the variable of a content. -/
def valueOf (source : Source) (content : Text) : Text :=
  match source (nameAndWidth content).1 with
  | .ok (some value) => value
  | _ => []

/-- Whether the variable of a content is a list. -/
def isMarker (source : Source) (content : Text) : Bool := ItemList.isList (valueOf source content)

/-- The text of an item in a token, empty if it cannot have the width of the token. -/
def textOf (content item : Text) : Text := (Context.rendering content item).toOption.getD []

/-- What stands for a variable: a marker if it is a list, and the text of its value if not. -/
def standIn (source : Source) (content : Text) : Piece :=
  if isMarker source content then .ofKind .loop content
  else .literal (textOf content (valueOf source content))

theorem textOf_of_rendering {content item rendered : Text}
    (h : Context.rendering content item = .ok rendered) : textOf content item = rendered := by
  rw [textOf, h]
  rfl

theorem valueOf_eq {source : Source} {content value : Text}
    (h : source (nameAndWidth content).1 = .ok (some value)) : valueOf source content = value := by
  rw [valueOf, h]

theorem valueOf_congr {source : Source} {content other : Text}
    (h : (nameAndWidth content).1 = (nameAndWidth other).1) :
    valueOf source content = valueOf source other := by
  unfold valueOf
  rw [h]

namespace IsBound

variable {source : Source} {ps : List Piece} {content : Text}

theorem plain (h : IsBound source ps) : ∀ p ∈ ps, p.Plain := fun p hp => (h.simple p hp).plain

theorem eq_required (h : IsBound source ps) {kind : TokenKind} (hc : content ∈ contents kind ps) :
    kind = .required ∧ IsFolded content ∧ Piece.IsContent content := by
  obtain ⟨tag, hp⟩ := mem_contents_iff.mp hc
  obtain ⟨hkind, -, hcontent, hfolded⟩ := h.simple _ hp
  exact ⟨hkind, hfolded, hcontent⟩

theorem source_eq (h : IsBound source ps) (hc : content ∈ contents .required ps) :
    source (nameAndWidth content).1 = .ok (some (valueOf source content)) := by
  obtain ⟨value, hvalue, -⟩ := h.bound content hc
  rw [valueOf_eq hvalue, hvalue]

theorem dollar_not_mem_valueOf (h : IsBound source ps) (hc : content ∈ contents .required ps) :
    '$' ∉ valueOf source content := by
  obtain ⟨value, hvalue, hnot⟩ := h.bound content hc
  rwa [valueOf_eq hvalue]

end IsBound

end Substitution

/-- The piece with what stands for it, if it is a variable that was swept. -/
def Piece.sweptFor (source : Source) (swept : List Text) : Piece → Piece
  | .token .required tag content =>
    if content ∈ swept then Substitution.standIn source content else .token .required tag content
  | p => p

/-- The piece with what stands for it, if it is a variable. -/
def Piece.settled (source : Source) : Piece → Piece
  | .token .required _ content => Substitution.standIn source content
  | p => p

namespace Substitution

open Outcome

variable {source : Source} {services : Services} {ps : List Piece}

/-- Whether values that are kept are the ones of their variables. -/
def Faithful (source : Source) (keep : Entries Text) : Prop :=
  ∀ e ∈ keep, source e.1 = .ok (some e.2)

theorem Faithful.put {keep : Entries Text} {name value : Text} (h : Faithful source keep)
    (hvalue : source name = .ok (some value)) : Faithful source (keep.put name value) := by
  intro e he
  rcases Entries.mem_put he with hmem | rfl
  · exact h e hmem
  · exact hvalue

theorem Faithful.putAll {keep added : Entries Text} (h : Faithful source keep)
    (hadded : Faithful source added) : Faithful source (keep.putAll added) := by
  intro e he
  rcases Entries.mem_putAll he with hmem | hmem
  · exact h e hmem
  · exact hadded e hmem

theorem Faithful.get?_eq {keep : Entries Text} {name value : Text} (h : Faithful source keep)
    (hname : name ∈ keep.keys) (hvalue : source name = .ok (some value)) :
    keep.get? name = some value := by
  cases hget : keep.get? name with
  | none => exact absurd hname (Entries.get?_eq_none_iff.mp hget)
  | some found =>
    have hfound : source name = .ok (some found) := h _ (Entries.mem_of_get? hget)
    rw [hvalue] at hfound
    rw [Option.some.inj (Except.ok.inj hfound)]

/-! ## One step -/

theorem dollar_not_mem_textOf {content item : Text} (h : '$' ∉ item) : '$' ∉ textOf content item := by
  unfold textOf
  cases hrendering : Context.rendering content item with
  | error e => exact List.not_mem_nil
  | ok rendered => exact Context.dollar_not_mem_rendering h hrendering

/-- The only token that stands for a variable is its marker. -/
theorem contentOf?_standIn (kind : TokenKind) (content : Text) :
    (standIn source content).contentOf? kind
      = if kind = .loop ∧ isMarker source content = true then some content else none := by
  unfold standIn
  by_cases hmarker : isMarker source content = true
  · rw [if_pos hmarker]
    by_cases hkind : kind = .loop
    · rw [if_pos ⟨hkind, hmarker⟩, hkind]
      rfl
    · rw [if_neg fun h => hkind h.1]
      exact if_neg (Ne.symm hkind)
  · rw [if_neg hmarker, if_neg fun h => hmarker h.2]
    rfl

theorem plain_standIn {content : Text} (hcontent : Piece.IsContent content)
    (hvalue : '$' ∉ valueOf source content) : (standIn source content).Plain := by
  unfold standIn
  split
  · exact Piece.plain_ofKind .loop hcontent
  · exact dollar_not_mem_textOf hvalue

theorem settle_of_not_mem {expand : Bool} {value : Text} (h : '$' ∉ value) :
    (Context.outermost source services expand).settle value = .ok value :=
  settleWith_of_not_mem h

/-- The list of a marker is the value of its variable. -/
theorem markerList_eq_valueOf {expand : Bool} {content : Text}
    (hvalue : source (nameAndWidth content).1 = .ok (some (valueOf source content)))
    (hnot : '$' ∉ valueOf source content) :
    (Context.outermost source services expand).markerList content
      = .ok (valueOf source content) := by
  have hsource : (Context.outermost source services expand).source (nameAndWidth content).1
      = .ok (some (valueOf source content)) := hvalue
  rw [Context.markerList, hsource]
  show (Context.outermost source services expand).settle (valueOf source content) = _
  exact settle_of_not_mem hnot

/-- Whether the variable of a content that was swept is a list, or its value was put in and is kept
under one of the names. -/
def IsKept (source : Source) (names : List Text) (content : Text) : Prop :=
  isMarker source content = true
    ∨ (nameAndWidth content).1 ∈ names
      ∧ ∃ rendered, Context.rendering content (valueOf source content) = .ok rendered

theorem IsKept.mono {names more : List Text} {content : Text} (h : IsKept source names content)
    (hsubset : names ⊆ more) : IsKept source more content := by
  rcases h with hmarker | ⟨hname, hrendered⟩
  · exact .inl hmarker
  · exact .inr ⟨hsubset hname, hrendered⟩

/-- What a step puts in for a variable is what stands for it, and the value is kept. -/
theorem replacement_standIn {content put : Text} {keep keep' : Entries Text}
    (hvalue : source (nameAndWidth content).1 = .ok (some (valueOf source content)))
    (hnot : '$' ∉ valueOf source content)
    (h : (Context.outermost source services true).replacement .required content
      (valueOf source content) keep = .ok (put, keep')) :
    put = (standIn source content).text ∧ IsKept source keep'.keys content
      ∧ keep.keys ⊆ keep'.keys ∧ (Faithful source keep → Faithful source keep') := by
  have hdefers : (Context.outermost source services true).defers .required (valueOf source content)
      = isMarker source content := rfl
  have hput : ∀ name value, name ∈ (keep.put name value).keys ∧ keep.keys ⊆ (keep.put name value).keys :=
    fun name value => ⟨Entries.mem_keys_put.mpr (.inr rfl),
      fun other hother => Entries.mem_keys_put.mpr (.inl hother)⟩
  -- A list is deferred, a value without a width is put in, and one with a width is padded first.
  rcases Context.replacement_eq_ok h with ⟨hmarker, rfl, rfl⟩ | ⟨hscalar, hplain | hpadded⟩
  · rw [hdefers] at hmarker
    refine ⟨?_, .inl hmarker, List.Subset.refl _, id⟩
    rw [standIn, if_pos hmarker, Piece.text_ofKind]
  · obtain ⟨hwidth, rfl, rfl⟩ := hplain
    rw [hdefers] at hscalar
    have hrendering : Context.rendering content (valueOf source content)
        = .ok (valueOf source content) := by
      rw [Context.rendering, hwidth]
      rfl
    refine ⟨?_, .inr ⟨(hput _ _).1, _, hrendering⟩, (hput _ _).2, fun hkeep => hkeep.put hvalue⟩
    rw [standIn, if_neg (by simp [hscalar]), Piece.text, textOf_of_rendering hrendering]
  · obtain ⟨w, n, settled, hwidth, hn, hsettled, hdigits, rfl⟩ := hpadded
    rw [settle_of_not_mem hnot] at hsettled
    obtain rfl := Except.ok.inj hsettled
    rw [hdefers] at hscalar
    have hrendering : Context.rendering content (valueOf source content) = .ok put := by
      rw [Context.rendering, hwidth]
      show (width content w >>= fun n => pure (some n)) >>= _ = _
      rw [hn]
      exact hdigits
    refine ⟨?_, .inr ⟨(hput _ _).1, _, hrendering⟩, (hput _ _).2, fun hkeep => hkeep.put hvalue⟩
    rw [standIn, if_neg (by simp [hscalar]), Piece.text, textOf_of_rendering hrendering]

namespace IsBound

variable {swept : List Text} {content : Text}

theorem plain_sweptFor (h : IsBound source ps) :
    ∀ p ∈ ps.map (Piece.sweptFor source swept), p.Plain := by
  intro p hp
  obtain ⟨q, hq, rfl⟩ := List.mem_map.mp hp
  cases q with
  | literal text => exact h.plain _ hq
  | token kind tag content =>
    obtain ⟨rfl, -, hcontent, -⟩ := h.simple _ hq
    rw [Piece.sweptFor]
    split
    · exact plain_standIn hcontent
        (h.dollar_not_mem_valueOf (mem_contents_iff.mpr ⟨tag, hq⟩))
    · exact h.plain _ hq

/-- The variables that are left are the ones that were not swept. -/
theorem mem_contents_sweptFor (h : IsBound source ps) :
    content ∈ contents .required (ps.map (Piece.sweptFor source swept))
      ↔ content ∈ contents .required ps ∧ content ∉ swept := by
  unfold contents
  rw [List.filterMap_map, List.mem_filterMap, List.mem_filterMap]
  constructor
  · intro hgiven
    obtain ⟨p, hp, hcontent⟩ := hgiven
    cases p with
    | literal text => cases hcontent
    | token kind tag c =>
      obtain ⟨rfl, -⟩ := h.simple _ hp
      rw [Function.comp_apply, Piece.sweptFor] at hcontent
      split at hcontent
      · rw [contentOf?_standIn] at hcontent
        cases hcontent
      · rename_i hnot
        obtain rfl := Option.some.inj hcontent
        exact ⟨⟨_, hp, rfl⟩, hnot⟩
  · intro hgiven
    obtain ⟨⟨p, hp, hcontent⟩, hnot⟩ := hgiven
    refine ⟨p, hp, ?_⟩
    cases p with
    | literal text => cases hcontent
    | token kind tag c =>
      obtain ⟨rfl, -⟩ := h.simple _ hp
      obtain rfl := Option.some.inj hcontent
      rw [Function.comp_apply, Piece.sweptFor, if_neg hnot]
      rfl

/-- There are no tokens but variables and markers. -/
theorem contents_sweptFor_eq_nil (h : IsBound source ps) {kind : TokenKind}
    (hrequired : kind ≠ .required) (hloop : kind ≠ .loop) :
    contents kind (ps.map (Piece.sweptFor source swept)) = [] := by
  unfold contents
  rw [List.filterMap_map, List.filterMap_eq_nil_iff]
  intro p hp
  cases p with
  | literal text => rfl
  | token other tag c =>
    obtain ⟨rfl, -⟩ := h.simple _ hp
    rw [Function.comp_apply, Piece.sweptFor]
    split
    · rw [contentOf?_standIn, if_neg fun hkind => hloop hkind.1]
    · exact if_neg (Ne.symm hrequired)

/-- Putting in what stands for a variable sweeps it. -/
theorem replaceAll_sweptFor (h : IsBound source ps) (hcontent : content ∈ contents .required ps) :
    Token.replaceAll .required content (standIn source content).text
        (render (ps.map (Piece.sweptFor source swept)))
      = render (ps.map (Piece.sweptFor source (content :: swept))) := by
  obtain ⟨-, hfolded, hcontents⟩ := h.eq_required hcontent
  rw [replaceAll_render hcontents.2.2 _ h.plain_sweptFor, render, List.flatMap_map,
    List.flatMap_map, List.flatMap_def, List.flatMap_def]
  refine congrArg List.flatten (List.map_congr_left fun p hp => ?_)
  cases p with
  | literal text => rfl
  | token kind tag c =>
    obtain ⟨rfl, -, -, hc⟩ := h.simple _ hp
    have hoccurrence : (Piece.token .required tag c).isOccurrence .required content = true
        ↔ c = content := by
      rw [Piece.isOccurrence_iff hfolded hc]
      exact ⟨fun hboth => hboth.2, fun heq => ⟨rfl, heq⟩⟩
    -- What stands for a variable that was swept before is no variable, so it is not touched.
    by_cases hin : c ∈ swept
    · have hnot : (standIn source c).isOccurrence .required content = false := by
        unfold standIn
        split
        · rfl
        · rfl
      rw [Piece.sweptFor, Piece.sweptFor, if_pos hin, if_pos (List.mem_cons_of_mem _ hin), hnot]
      rfl
    · rw [Piece.sweptFor, Piece.sweptFor, if_neg hin]
      by_cases heq : c = content
      · rw [if_pos (hoccurrence.mpr heq), if_pos (by simp [heq]), heq]
      · rw [if_neg (mt hoccurrence.mp heq), if_neg (by simp [heq, hin])]

theorem map_sweptFor_eq (h : IsBound source ps)
    (hall : ∀ content ∈ contents .required ps, content ∈ swept) :
    ps.map (Piece.sweptFor source swept) = ps.map (Piece.settled source) := by
  refine List.map_congr_left fun p hp => ?_
  cases p with
  | literal text => rfl
  | token kind tag c =>
    obtain ⟨rfl, -⟩ := h.simple _ hp
    exact if_pos (hall c (mem_contents_iff.mpr ⟨tag, hp⟩))

end IsBound

/-! ## Sweeps and rounds -/

/-- How far the variables of a text are swept: which of them, and what is left of the text. -/
structure Sweeping (source : Source) (ps : List Piece) (swept : List Text) (text : Text)
    (names : List Text) : Prop where
  text_eq : text = render (ps.map (Piece.sweptFor source swept))
  kept : ∀ content ∈ swept, IsKept source names content

theorem Sweeping.mono {swept names more : List Text} {text : Text}
    (h : Sweeping source ps swept text names) (hsubset : names ⊆ more) :
    Sweeping source ps swept text more :=
  ⟨h.text_eq, fun content hcontent => (h.kept content hcontent).mono hsubset⟩

namespace IsBound

/-- Nothing is swept at first. -/
theorem sweeping_nil (h : IsBound source ps) : Sweeping source ps [] (render ps) [] := by
  refine ⟨?_, fun content hcontent => absurd hcontent List.not_mem_nil⟩
  have hmap : ps.map (Piece.sweptFor source []) = ps.map id := by
    refine List.map_congr_left fun p hp => ?_
    cases p with
    | literal text => rfl
    | token kind tag c =>
      obtain ⟨rfl, -⟩ := h.simple _ hp
      rw [Piece.sweptFor, if_neg List.not_mem_nil]
      rfl
  rw [hmap, List.map_id]

theorem first?_eq_none (h : IsBound source ps) {swept names : List Text} {text : Text}
    (hsweeping : Sweeping source ps swept text names) {kind : TokenKind}
    (hrequired : kind ≠ .required) (hloop : kind ≠ .loop) : first? kind text = none := by
  rw [hsweeping.text_eq, first?_render h.plain_sweptFor,
    h.contents_sweptFor_eq_nil hrequired hloop]
  rfl

/-- A step sweeps the first variable that is left. -/
theorem sweeping_of_replaceToken (h : IsBound source ps) {swept names : List Text}
    {content : Text} {s s' : Progress} (hfirst : first? .required s.text = some content)
    (hsweeping : Sweeping source ps swept s.text (names ++ s.keep.keys))
    (hstep : (Context.outermost source services true).replaceToken .required true content s
      = .ok s') :
    Sweeping source ps (content :: swept) s'.text (names ++ s'.keep.keys)
      ∧ (Faithful source s.keep → Faithful source s'.keep) := by
  rw [hsweeping.text_eq, first?_render h.plain_sweptFor] at hfirst
  obtain ⟨hcontent, -⟩ := h.mem_contents_sweptFor.mp (List.mem_of_mem_head? hfirst)
  have hvalue := h.source_eq hcontent
  have hresolve : (Context.outermost source services true).resolve .required
      (nameAndWidth content).1 = .ok (some (valueOf source content)) := hvalue
  rcases Context.replaceToken_eq_ok hstep with ⟨value, put, keep, hfound, hput, rfl⟩ | ⟨hfound, -, -⟩
  · rw [hresolve] at hfound
    obtain rfl := Option.some.inj (Except.ok.inj hfound)
    obtain ⟨rfl, hkept, hsubset, hfaithful⟩ :=
      replacement_standIn hvalue (h.dollar_not_mem_valueOf hcontent) hput
    refine ⟨⟨?_, fun c hc => ?_⟩, hfaithful⟩
    · show Token.replaceAll .required content _ s.text = _
      rw [hsweeping.text_eq, h.replaceAll_sweptFor hcontent]
    · rcases List.mem_cons.mp hc with rfl | hc
      · exact hkept.mono (List.subset_append_right _ _)
      · refine (hsweeping.kept c hc).mono fun name hname => ?_
        rcases List.mem_append.mp hname with hbefore | hthen
        · exact List.mem_append_left _ hbefore
        · exact List.mem_append_right _ (hsubset hthen)
  · rw [hresolve] at hfound
    cases hfound

/-- A round sweeps all variables that are left. -/
theorem sweeping_of_round (h : IsBound source ps) {swept : List Text} {branch : Branch}
    {s : Progress} (hsweeping : Sweeping source ps swept branch.value branch.keep.keys)
    (hfaithful : Faithful source branch.keep)
    (hround : (Context.outermost source services true).round ⟨true, branch.value, branch.keep⟩
      Context.variableSweeps = .ok s) :
    ∃ all, Sweeping source ps all s.text s.keep.keys ∧ Faithful source s.keep
      ∧ ∀ content ∈ contents .required ps, content ∈ all := by
  have hheader := h.first?_eq_none hsweeping (by decide : TokenKind.header ≠ .required) (by decide)
  have hoptional := h.first?_eq_none hsweeping (by decide : TokenKind.optional ≠ .required)
    (by decide)
  obtain ⟨sh, hsh, hround⟩ := Context.round_cons_eq_ok hround
  rw [Context.sweep_of_none hheader] at hsh
  obtain rfl := Except.ok.inj hsh
  obtain ⟨so, hso, hround⟩ := Context.round_cons_eq_ok hround
  rw [Context.sweep_of_none hoptional] at hso
  obtain rfl := Except.ok.inj hso
  obtain ⟨sr, hsr, hround⟩ := Context.round_cons_eq_ok hround
  obtain rfl := Except.ok.inj hround
  -- The names that the round began with are kept beside the ones of the sweep.
  obtain ⟨⟨⟨all, hall⟩, hadded⟩, hnone⟩ := Context.sweepFrom_keeps
    (P := fun s => (∃ swept, Sweeping source ps swept s.text (branch.keep.keys ++ s.keep.keys))
      ∧ Faithful source s.keep)
    (fun content s s' hfirst ⟨⟨swept, hs⟩, hkeep⟩ hstep => by
      obtain ⟨hnext, hfaithful⟩ := h.sweeping_of_replaceToken hfirst hs hstep
      exact ⟨⟨_, hnext⟩, hfaithful hkeep⟩)
    ⟨⟨swept, hsweeping.mono (List.subset_append_left _ _)⟩,
      fun e he => absurd he List.not_mem_nil⟩ hsr
  refine ⟨all, hall.mono fun name hname => ?_, hfaithful.putAll hadded, fun content hcontent => ?_⟩
  · exact Entries.mem_keys_putAll.mpr (List.mem_append.mp hname)
  · rw [hall.text_eq, first?_render h.plain_sweptFor, List.head?_eq_none_iff] at hnone
    by_cases hin : content ∈ all
    · exact hin
    · have hleft := h.mem_contents_sweptFor.mpr ⟨hcontent, hin⟩
      rw [hnone] at hleft
      cases hleft

end IsBound

/-- Rounds of sweeps leave a branch as it is if it has no token of their kinds. -/
theorem Context.settleSweeps_eq_ok_of_none {ctx : Context} {sweeps : List (TokenKind × Bool)}
    {branch final : Branch} (hnone : ∀ p ∈ sweeps, first? p.1 branch.value = none)
    (h : ctx.settleSweeps sweeps branch = .ok final) : final = branch := by
  have hlimit : ctx.services.limit ≠ 0 := by
    intro hzero
    rw [settleSweeps, hzero] at h
    cases h
  rw [settleSweeps_of_none hnone hlimit] at h
  exact (Except.ok.inj h).symm

/-- Before the markers are unrolled, what stands for each variable is put in, and the values that
were put in are kept. -/
theorem IsBound.settleText_render (h : IsBound source ps) {settled : Branch}
    (hok : (Context.outermost source services true).settleText (render ps) = .ok settled) :
    settled.value = render (ps.map (Piece.settled source)) ∧ Faithful source settled.keep
      ∧ ∀ content ∈ contents .required ps, IsKept source settled.keep.keys content := by
  obtain ⟨called, hcalled, hok⟩ := bind_eq_ok_iff.mp hok
  obtain ⟨-, last, ⟨swept, hswept, hlast⟩, hround⟩ := Context.settleFrom_keeps
    (P := fun b => ∃ swept, Sweeping source ps swept b.value b.keep.keys ∧ Faithful source b.keep)
    (fun b s ⟨swept, hswept, hkeep⟩ hround => by
      obtain ⟨all, hall, hfaithful, -⟩ := h.sweeping_of_round hswept hkeep hround
      exact ⟨all, hall, hfaithful⟩)
    ⟨[], h.sweeping_nil, fun e he => absurd he List.not_mem_nil⟩ hcalled
  obtain ⟨all, hall, hfaithful, hevery⟩ := h.sweeping_of_round hswept hlast hround
  -- There are no calls, so the second phase has nothing to do.
  have hcalls : ∀ p ∈ Context.callSweeps, first? p.1 called.value = none := by
    intro p hp
    obtain rfl := List.mem_singleton.mp hp
    exact h.first?_eq_none hall (by decide) (by decide)
  obtain rfl := Context.settleSweeps_eq_ok_of_none hcalls hok
  refine ⟨?_, hfaithful, fun content hcontent => hall.kept content (hevery content hcontent)⟩
  rw [← h.map_sweptFor_eq hevery]
  exact hall.text_eq

end Substitution

end WorkflowControl
