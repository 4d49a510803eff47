import WorkflowControl.Proofs.Substitution.Flat

/-!
Unrolling a template. If the lists of its markers have no `$`, a template unrolls into one branch for
each way to pick an item for each of the distinct markers: every occurrence of a marker is filled
with the text of its item, and the items are kept in the order in which the markers first occur
(`unrolls_render_iff`). Two markers of one list are filled independently, and the last one decides
which item is kept (`exists_last_marker`).
-/

namespace WorkflowControl

open Text Token

/-- The piece with a text in place of the marker of a content. -/
def Piece.fillMarker (content rendered : Text) (p : Piece) : Piece :=
  if p.isOccurrence .loop content then .literal rendered else p

/-- The piece with a picked item in place of a marker. -/
def Piece.fill (pick : Text → Choice) : Piece → Piece
  | .token .loop _ content => .literal (pick content).rendered
  | p => p

theorem render_map_fillMarker (content rendered : Text) (ps : List Piece) :
    render (ps.map (Piece.fillMarker content rendered))
      = ps.flatMap fun p => if p.isOccurrence .loop content then rendered else p.text :=
  render_map_putText .loop content rendered ps

theorem replaceAll_render_fillMarker {content : Text} (hclose : '}' ∉ content) (rendered : Text)
    {ps : List Piece} (hps : ∀ p ∈ ps, p.Plain) :
    replaceAll .loop content rendered (render ps)
      = render (ps.map (Piece.fillMarker content rendered)) :=
  replaceAll_render_putText hclose rendered hps

/-- Whether the contents of the markers of a template are folded. -/
def FoldedMarkers (ps : List Piece) : Prop := ∀ c ∈ contents .loop ps, IsFolded c

/-- Whether the markers of a template are one if they differ in case at most. -/
def ApartMarkers (ps : List Piece) : Prop :=
  ∀ c ∈ contents .loop ps, ∀ d ∈ contents .loop ps, Alike c d → d = c

theorem FoldedMarkers.apart {ps : List Piece} (h : FoldedMarkers ps) : ApartMarkers ps :=
  fun c hc d hd halike => ((alike_iff_eq (h c hc) (h d hd)).mp halike).symm

/-- A marker that is alike only to itself occurs where it stands. -/
theorem isOccurrence_loop_iff {content c : Text} {kind : TokenKind} {tag : Text}
    (h : Alike content c → c = content) :
    (Piece.token kind tag c).isOccurrence .loop content = true ↔ kind = .loop ∧ c = content := by
  simp only [Piece.isOccurrence, Bool.and_eq_true, decide_eq_true_eq]
  constructor
  · intro hgiven
    exact ⟨hgiven.1, h hgiven.2⟩
  · intro hgiven
    obtain ⟨hkind, rfl⟩ := hgiven
    exact ⟨hkind, Alike.refl _⟩

/-- Filling a marker takes its content out of the contents. -/
theorem contents_fillMarker {content : Text} (rendered : Text) {ps : List Piece}
    (hps : ∀ c ∈ contents .loop ps, Alike content c → c = content) :
    contents .loop (ps.map (Piece.fillMarker content rendered))
      = (contents .loop ps).filter fun c => !c == content := by
  refine (contents_putText .loop content rendered ps).trans (List.filter_congr fun c hc => ?_)
  by_cases heq : c = content
  · rw [heq]
    simp [Alike.refl]
  · have hnot : ¬ Alike content c := fun halike => heq (hps c hc halike)
    simp [hnot, heq]

theorem fill_fillMarker {pick : Text → Choice} {content : Text} {p : Piece}
    (hp : ∀ c, p.contentOf? .loop = some c → Alike content c → c = content) :
    (p.fillMarker content (pick content).rendered).fill pick = p.fill pick := by
  unfold Piece.fillMarker
  split
  · rename_i hoccurrence
    cases p with
    | literal text => cases hoccurrence
    | token kind tag c =>
      have hkind : kind = .loop := by
        simp [Piece.isOccurrence] at hoccurrence
        exact hoccurrence.1
      subst hkind
      obtain ⟨-, rfl⟩ := (isOccurrence_loop_iff (hp c rfl)).mp hoccurrence
      rfl
  · rfl

theorem plain_fillMarker {content rendered : Text} (h : '$' ∉ rendered) {p : Piece}
    (hp : p.Plain) : (p.fillMarker content rendered).Plain :=
  plain_putText h hp

/-- A piece that is no marker is left as it is by filling. -/
theorem fill_of_not_marker {pick : Text → Choice} {p : Piece} (h : p.contentOf? .loop = none) :
    p.fill pick = p := by
  cases p with
  | literal text => rfl
  | token kind tag c =>
    cases kind with
    | loop => cases h
    | _ => rfl

theorem map_fill_congr {pick other : Text → Choice} {ps : List Piece}
    (h : ∀ c ∈ contents .loop ps, pick c = other c) :
    ps.map (Piece.fill pick) = ps.map (Piece.fill other) := by
  refine List.map_congr_left fun p hp => ?_
  cases hc : p.contentOf? .loop with
  | none => rw [fill_of_not_marker hc, fill_of_not_marker hc]
  | some c =>
    have heq := h c (List.mem_filterMap.mpr ⟨p, hp, hc⟩)
    cases p with
    | literal text => rfl
    | token kind tag content =>
      cases kind with
      | loop =>
        obtain rfl := Option.some.inj hc
        rw [Piece.fill, Piece.fill, heq]
      | _ => rfl

namespace Substitution.Context

variable {ctx : Context} {pick : Text → Choice}

/-- The values kept after the items that are picked for markers. -/
def keepPicked (pick : Text → Choice) (keep : Entries Text) (markers : List Text) : Entries Text :=
  markers.foldl (fun keep c => keep.put (nameAndWidth c).1 (pick c).item) keep

theorem keepPicked_congr {other : Text → Choice} {markers : List Text}
    (h : ∀ c ∈ markers, pick c = other c) (keep : Entries Text) :
    keepPicked pick keep markers = keepPicked other keep markers := by
  induction markers generalizing keep with
  | nil => rfl
  | cons c markers ih =>
    have hfirst := h c List.mem_cons_self
    show keepPicked pick (keep.put _ (pick c).item) markers
      = keepPicked other (keep.put _ (other c).item) markers
    rw [hfirst]
    exact ih (fun d hd => h d (List.mem_cons_of_mem _ hd)) _

/-- The picks with another one for a marker. -/
def pickFor (content : Text) (choice : Choice) (pick : Text → Choice) : Text → Choice :=
  fun c => if c = content then choice else pick c

theorem pickFor_self (content : Text) (choice : Choice) (pick : Text → Choice) :
    pickFor content choice pick content = choice := if_pos rfl

theorem pickFor_of_ne {content c : Text} (h : c ≠ content) (choice : Choice)
    (pick : Text → Choice) : pickFor content choice pick c = pick c := if_neg h

/-- A choice for a marker is one for its content, and its text has no `$`. -/
theorem PlainList.of_mem_choices {content : Text} (hlist : ctx.PlainList content)
    {options : List Choice} {choice : Choice} (hoptions : ctx.choices content = .ok options)
    (hchoice : choice ∈ options) : choice.content = content ∧ '$' ∉ choice.rendered := by
  obtain ⟨raw, hraw, -, hmem⟩ := choices_eq_ok hoptions
  obtain ⟨item, hitem, rendered, hrendered, rfl⟩ := (hmem choice).mp hchoice
  have hnot := ItemList.dollar_not_mem_item (hlist raw hraw) hitem
  exact ⟨rfl, dollar_not_mem_rendering hnot hrendered⟩

/-- The markers of a template whose first one is filled are the others. -/
structure FillsFirst (ps : List Piece) (content : Text) (markers : List Text) : Prop where
  apart : ∀ c ∈ contents .loop ps, Alike content c → c = content
  first : (contents .loop ps).head? = some content
  mem_iff : ∀ c, c ∈ contents .loop ps ↔ c = content ∨ c ∈ markers
  not_mem : content ∉ markers
  rest : ∀ rendered, (contents .loop (ps.map (Piece.fillMarker content rendered))).eraseDups
    = markers

theorem fillsFirst_of_eraseDups {ps : List Piece} {content : Text} {markers : List Text}
    (happart : ApartMarkers ps) (h : (contents .loop ps).eraseDups = content :: markers) :
    FillsFirst ps content markers := by
  cases hcontents : contents .loop ps with
  | nil =>
    rw [hcontents] at h
    cases h
  | cons c cs =>
    rw [hcontents, List.eraseDups_cons] at h
    obtain ⟨rfl, rfl⟩ := List.cons.inj h
    have hc : c ∈ contents .loop ps := by
      rw [hcontents]
      exact List.mem_cons_self
    refine ⟨happart c hc, by rw [hcontents]; rfl, fun d => ?_, ?_, fun rendered => ?_⟩
    · rw [hcontents, List.mem_cons, List.mem_eraseDups, List.mem_filter]
      by_cases hd : d = c
      · simp [hd]
      · simp [hd]
    · rw [List.mem_eraseDups, List.mem_filter]
      simp
    · rw [contents_fillMarker _ (happart c hc), hcontents, List.filter_cons]
      simp

theorem FillsFirst.mem_fillMarker {ps : List Piece} {content rendered c : Text}
    {markers : List Text} (h : FillsFirst ps content markers)
    (hc : c ∈ contents .loop (ps.map (Piece.fillMarker content rendered))) :
    c ∈ contents .loop ps ∧ c ≠ content := by
  have hmem : c ∈ markers := by
    rw [← h.rest rendered]
    exact List.mem_eraseDups.mpr hc
  refine ⟨(h.mem_iff c).mpr (.inr hmem), ?_⟩
  intro heq
  subst heq
  exact h.not_mem hmem

/-- Whether the picks for the markers of a template are choices for them. -/
def IsPick (ctx : Context) (ps : List Piece) (pick : Text → Choice) : Prop :=
  ∀ c ∈ contents .loop ps, ∃ options, ctx.choices c = .ok options ∧ pick c ∈ options

/-- The branch with picked items in place of all markers of a template. -/
def filling (ps : List Piece) (keep : Entries Text) (pick : Text → Choice) : Branch :=
  ⟨render (ps.map (Piece.fill pick)), keepPicked pick keep (contents .loop ps).eraseDups⟩

theorem filling_congr {other : Text → Choice} {ps : List Piece}
    (h : ∀ c ∈ contents .loop ps, pick c = other c) (keep : Entries Text) :
    filling ps keep pick = filling ps keep other := by
  rw [filling, filling, map_fill_congr h,
    keepPicked_congr fun c hc => h c (List.mem_eraseDups.mp hc)]

theorem map_fill_of_not_marker {ps : List Piece} (h : contents .loop ps = [])
    (pick : Text → Choice) : ps.map (Piece.fill pick) = ps := by
  have hmap : ps.map (Piece.fill pick) = ps.map id :=
    List.map_congr_left fun p hp => fill_of_not_marker (List.filterMap_eq_nil_iff.mp h p hp)
  rw [hmap, List.map_id]

theorem filling_of_not_marker {ps : List Piece} (h : contents .loop ps = []) (keep : Entries Text)
    (pick : Text → Choice) : filling ps keep pick = ⟨render ps, keep⟩ := by
  rw [filling, map_fill_of_not_marker h, h]
  rfl

theorem isPick_of_not_marker {ps : List Piece} (h : contents .loop ps = []) (pick : Text → Choice) :
    ctx.IsPick ps pick := by
  intro c hc
  rw [h] at hc
  cases hc

theorem FillsFirst.map_fill_fillMarker {ps : List Piece} {content : Text} {markers : List Text}
    (h : FillsFirst ps content markers) (pick : Text → Choice) :
    (ps.map (Piece.fillMarker content (pick content).rendered)).map (Piece.fill pick)
      = ps.map (Piece.fill pick) := by
  rw [List.map_map]
  refine List.map_congr_left fun p hp => ?_
  exact fill_fillMarker fun c hc => h.apart c (List.mem_filterMap.mpr ⟨p, hp, hc⟩)

/-- Filling the first marker and then the others is filling all of them. -/
theorem FillsFirst.filling_fillMarker {ps : List Piece} {content : Text} {markers : List Text}
    (h : FillsFirst ps content markers)
    (hmarkers : (contents .loop ps).eraseDups = content :: markers) (keep : Entries Text)
    (pick : Text → Choice) :
    filling (ps.map (Piece.fillMarker content (pick content).rendered))
        (keep.put (nameAndWidth content).1 (pick content).item) pick
      = filling ps keep pick := by
  rw [filling, filling, h.map_fill_fillMarker, h.rest, hmarkers]
  rfl

/-- What is picked for the first marker does not matter once it is filled. -/
theorem FillsFirst.filling_pickFor {ps : List Piece} {content : Text} {markers : List Text}
    (h : FillsFirst ps content markers) (choice : Choice) (keep : Entries Text)
    (pick : Text → Choice) :
    filling (ps.map (Piece.fillMarker content choice.rendered)) keep (pickFor content choice pick)
      = filling (ps.map (Piece.fillMarker content choice.rendered)) keep pick :=
  filling_congr (fun _ hc => pickFor_of_ne (h.mem_fillMarker hc).2 choice pick) keep

/-- Choices for the first marker and for the others are choices for all of them. -/
theorem FillsFirst.isPick_pickFor {ps : List Piece} {content : Text} {markers : List Text}
    (h : FillsFirst ps content markers) {options : List Choice} {choice : Choice}
    (hoptions : ctx.choices content = .ok options) (hchoice : choice ∈ options)
    (hpick : ctx.IsPick (ps.map (Piece.fillMarker content choice.rendered)) pick) :
    ctx.IsPick ps (pickFor content choice pick) := by
  intro c hc
  by_cases hne : c = content
  · rw [hne, pickFor_self]
    exact ⟨options, hoptions, hchoice⟩
  · rw [pickFor_of_ne hne]
    refine hpick c (List.mem_eraseDups.mp ?_)
    rw [h.rest]
    exact ((h.mem_iff c).mp hc).resolve_left hne

/-- The branches that a template unrolls into are its fillings. -/
theorem unrolls_render_iff {ps : List Piece} (hps : ∀ p ∈ ps, p.Plain) (hfolded : FoldedMarkers ps)
    (hlists : ∀ c ∈ contents .loop ps, ctx.PlainList c) (keep : Entries Text) (final : Branch) :
    ctx.Unrolls ⟨render ps, keep⟩ final
      ↔ ∃ pick : Text → Choice, ctx.IsPick ps pick ∧ final = filling ps keep pick := by
  generalize hmarkers : (contents .loop ps).eraseDups = markers
  -- One marker is filled at a time, and with it all its occurrences.
  induction markers generalizing ps keep final with
  | nil =>
    have hcontents : contents .loop ps = [] := by
      cases hc : contents .loop ps with
      | nil => rfl
      | cons c cs =>
        rw [hc, List.eraseDups_cons] at hmarkers
        cases hmarkers
    have hnone : first? .loop (render ps) = none := by
      rw [first?_render hps, hcontents]
      rfl
    have hfilling : ∀ pick, filling ps keep pick = ⟨render ps, keep⟩ :=
      fun pick => filling_of_not_marker hcontents keep pick
    rw [unrolls_of_none hnone]
    constructor
    · intro hfinal
      refine ⟨fun c => ⟨c, [], []⟩, isPick_of_not_marker hcontents _, ?_⟩
      rw [hfinal, hfilling]
    · intro h
      obtain ⟨pick, -, hfinal⟩ := h
      rw [hfinal, hfilling]
  | cons content markers ih =>
    have hstep := fillsFirst_of_eraseDups hfolded.apart hmarkers
    have hcontent : content ∈ contents .loop ps := (hstep.mem_iff content).mpr (.inl rfl)
    have hfirst : first? .loop (render ps) = some content := by
      rw [first?_render hps, hstep.first]
    have hclose : '}' ∉ content := by
      obtain ⟨tag, hpiece⟩ := mem_contents_iff.mp hcontent
      exact (hps _ hpiece).2.2.2
    have hnext : ∀ options, ctx.choices content = .ok options → ∀ choice ∈ options,
        (ctx.Unrolls (Branch.choose ⟨render ps, keep⟩ choice) final
          ↔ ∃ pick : Text → Choice,
              ctx.IsPick (ps.map (Piece.fillMarker content choice.rendered)) pick
              ∧ final = filling (ps.map (Piece.fillMarker content choice.rendered))
                  (keep.put (nameAndWidth content).1 choice.item) pick) := by
      intro options hoptions choice hchoice
      obtain ⟨heq, hnot⟩ := (hlists content hcontent).of_mem_choices hoptions hchoice
      rw [Branch.choose, heq, replaceAll_render_fillMarker hclose _ hps]
      apply ih
      · intro p hp
        obtain ⟨q, hq, rfl⟩ := List.mem_map.mp hp
        exact plain_fillMarker hnot (hps q hq)
      · exact fun c hc => hfolded c (hstep.mem_fillMarker hc).1
      · exact fun c hc => hlists c (hstep.mem_fillMarker hc).1
      · exact hstep.rest choice.rendered
    rw [unrolls_of_first hfirst]
    constructor
    · intro h
      obtain ⟨options, hoptions, choice, hchoice, hunrolls⟩ := h
      obtain ⟨pick, hpick, hfinal⟩ := (hnext options hoptions choice hchoice).mp hunrolls
      refine ⟨pickFor content choice pick, hstep.isPick_pickFor hoptions hchoice hpick, ?_⟩
      rw [hfinal, ← hstep.filling_fillMarker hmarkers, pickFor_self,
        hstep.filling_pickFor]
    · intro h
      obtain ⟨pick, hpick, hfinal⟩ := h
      obtain ⟨options, hoptions, hchoice⟩ := hpick content hcontent
      refine ⟨options, hoptions, pick content, hchoice,
        (hnext options hoptions _ hchoice).mpr ⟨pick, ?_, ?_⟩⟩
      · exact fun c hc => hpick c (hstep.mem_fillMarker hc).1
      · rw [hfinal, hstep.filling_fillMarker hmarkers]

/-! ## Values that are kept -/

theorem get?_keepPicked_of_not_mem {markers : List Text} {name : Text}
    (h : ∀ c ∈ markers, (nameAndWidth c).1 ≠ name) (keep : Entries Text) :
    (keepPicked pick keep markers).get? name = keep.get? name := by
  induction markers generalizing keep with
  | nil => rfl
  | cons c markers ih =>
    show (keepPicked pick (keep.put _ (pick c).item) markers).get? name = _
    rw [ih fun d hd => h d (List.mem_cons_of_mem _ hd)]
    exact Entries.get?_put_ne (h c List.mem_cons_self).symm _ _

/-- What is kept for a name is the item of the last marker with that name. -/
theorem exists_last_marker {R : Text → Text → Prop} {markers : List Text}
    (h : markers.Pairwise R) (pick : Text → Choice) (keep : Entries Text) {c : Text} (hc : c ∈ markers) :
    ∃ last ∈ markers, (nameAndWidth last).1 = (nameAndWidth c).1 ∧ (last = c ∨ R c last)
      ∧ (keepPicked pick keep markers).get? (nameAndWidth c).1 = some (pick last).item := by
  induction markers generalizing keep c with
  | nil => cases hc
  | cons d markers ih =>
    obtain ⟨hfirst, hrest⟩ := List.pairwise_cons.mp h
    -- A later marker of the name overwrites what an earlier one kept.
    by_cases hlater : ∃ e ∈ markers, (nameAndWidth e).1 = (nameAndWidth c).1
    · obtain ⟨e, he, hname⟩ := hlater
      rcases List.mem_cons.mp hc with rfl | hc
      · obtain ⟨last, hlast, hlastName, -, hget⟩ :=
          ih hrest (keep.put (nameAndWidth c).1 (pick c).item) he
        rw [hname] at hlastName hget
        exact ⟨last, List.mem_cons_of_mem _ hlast, hlastName, .inr (hfirst last hlast), hget⟩
      · obtain ⟨last, hlast, hlastName, hrelated, hget⟩ :=
          ih hrest (keep.put (nameAndWidth d).1 (pick d).item) hc
        exact ⟨last, List.mem_cons_of_mem _ hlast, hlastName, hrelated, hget⟩
    · have hnone : ∀ e ∈ markers, (nameAndWidth e).1 ≠ (nameAndWidth c).1 :=
        fun e he heq => hlater ⟨e, he, heq⟩
      rcases List.mem_cons.mp hc with rfl | hc
      · refine ⟨c, List.mem_cons_self, rfl, .inl rfl, ?_⟩
        show (keepPicked pick (keep.put _ (pick c).item) markers).get? _ = _
        rw [get?_keepPicked_of_not_mem hnone, Entries.get?_put_self]
      · exact absurd rfl (hnone c hc)

end Substitution.Context

end WorkflowControl
