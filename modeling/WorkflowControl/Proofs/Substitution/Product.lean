import WorkflowControl.Proofs.Substitution.Agreement
import WorkflowControl.Proofs.Text.Ascii
import WorkflowControl.Proofs.Token.LoopText

/-!
Unrolling as a product. A text of literals and loop markers unrolls into one branch for each
combination of the items of its distinct markers, in lexicographic order: the marker that occurs
first varies slowest (`unroll_eq_loopBranches`).

The work list is gone through level by level. On a level every branch has the same markers left, as
filling one does not disturb another, so all branches are done on the same level, and what a level
does is filling the first marker of each branch with each of its items in turn
(`unrollFrom_pending`). A marker that ends in an earlier one would be disturbed: the earlier one is
found in it (`not_unroll_eq_loopBranches`).
-/

namespace WorkflowControl

open Text Token

/-! ## Combinations -/

/-- The ways to take an item of each list, with the items of the first list varying slowest. -/
def combinations {α : Type} : List (List α) → List (List α)
  | [] => [[]]
  | xs :: rest => xs.flatMap fun x => (combinations rest).map (x :: ·)

theorem length_combinations {α : Type} (lists : List (List α)) :
    (combinations lists).length = (lists.map List.length).foldr (· * ·) 1 := by
  induction lists with
  | nil => rfl
  | cons xs rest ih =>
    rw [combinations, List.length_flatMap, List.map_cons, List.foldr_cons, ← ih]
    simp only [List.length_map]
    rw [List.map_const', List.sum_replicate_nat]

/-- The combinations of lists in order are in lexicographic order. -/
theorem pairwise_combinations {α : Type} {r : α → α → Prop} {lists : List (List α)}
    (h : ∀ xs ∈ lists, xs.Pairwise r) : (combinations lists).Pairwise (List.Lex r) := by
  induction lists with
  | nil => exact List.pairwise_singleton _ _
  | cons xs rest ih =>
    have hrest := ih fun ys hys => h ys (List.mem_cons_of_mem _ hys)
    rw [combinations, List.pairwise_flatMap]
    constructor
    · intro x _
      rw [List.pairwise_map]
      exact hrest.imp fun hlex => .cons hlex
    · refine (h xs List.mem_cons_self).imp fun hxy first hfirst second hsecond => ?_
      obtain ⟨tail, -, rfl⟩ := List.mem_map.mp hfirst
      obtain ⟨tail', -, rfl⟩ := List.mem_map.mp hsecond
      exact .rel hxy

/-! ## Texts that unroll -/

namespace Substitution

/-- The distinct markers of a text, in the order in which they first occur. -/
def loopMarkers (ps : List Piece) : List Text := (contents .loop ps).eraseDups

/-- The items of a combination by their markers. -/
def assigned (markers combination : List Text) (content : Text) : Text :=
  (Entries.get? content (markers.zip combination)).getD []

/-- A text of literals and markers of different names, with a value without `$` for each name, valid
widths, and integers as items where there is a width. -/
structure IsLoopText (source : Source) (ps : List Piece) : Prop where
  looping : ∀ p ∈ ps, p.Looping
  apart : ∀ c ∈ contents .loop ps, ∀ d ∈ contents .loop ps, c ≠ d →
    ¬ Alike (nameAndWidth c).1 (nameAndWidth d).1
  bound : ∀ c ∈ contents .loop ps,
    ∃ value, source (nameAndWidth c).1 = .ok (some value) ∧ '$' ∉ value
  widths : ∀ c ∈ contents .loop ps, ∀ w, (nameAndWidth c).2 = some w →
    (∃ n, width c w = .ok n)
      ∧ ∀ item ∈ itemsOf source c, ∃ z, Text.signed? item.trim = some z

/-- The branches with the items of each combination in place of the markers. Each keeps the items of
its combination under the names of the markers. -/
def loopBranches (source : Source) (ps : List Piece) (keep : Entries Text) : List Branch :=
  (combinations ((loopMarkers ps).map (itemsOf source))).map fun combination =>
    Context.filling ps keep (choiceOf (assigned (loopMarkers ps) combination))

theorem assigned_self (content item : Text) (markers combination : List Text) :
    assigned (content :: markers) (item :: combination) content = item := by
  rw [assigned, List.zip_cons_cons, Entries.get?, if_pos rfl]
  rfl

theorem assigned_of_ne {content c : Text} (h : c ≠ content) (item : Text)
    (markers combination : List Text) :
    assigned (content :: markers) (item :: combination) c = assigned markers combination c := by
  rw [assigned, List.zip_cons_cons, Entries.get?, if_neg (Ne.symm h)]
  rfl

theorem mem_loopMarkers {ps : List Piece} {content : Text} :
    content ∈ loopMarkers ps ↔ content ∈ contents .loop ps := List.mem_eraseDups

variable {source : Source} {services : Services} {expand : Bool} {ps : List Piece}
  {content : Text}

namespace IsLoopText

theorem apartMarkers (h : IsLoopText source ps) : ApartMarkers ps := by
  intro c hc d hd halike
  by_cases heq : c = d
  · exact heq.symm
  · exact absurd (halike.upTo (by decide)) (h.apart c hc d hd heq)

theorem source_eq (h : IsLoopText source ps) (hc : content ∈ contents .loop ps) :
    source (nameAndWidth content).1 = .ok (some (valueOf source content)) := by
  obtain ⟨value, hvalue, -⟩ := h.bound content hc
  rw [valueOf_eq hvalue, hvalue]

theorem dollar_not_mem_valueOf (h : IsLoopText source ps) (hc : content ∈ contents .loop ps) :
    '$' ∉ valueOf source content := by
  obtain ⟨value, hvalue, hnot⟩ := h.bound content hc
  rwa [valueOf_eq hvalue]

/-- Every item of a marker has a text of the width of the marker. -/
theorem exists_width (h : IsLoopText source ps) (hc : content ∈ contents .loop ps) :
    ∃ width?, (nameAndWidth content).2.mapM (width content) = .ok width?
      ∧ ∀ item ∈ itemsOf source content, ∃ rendered, Context.renderItem width? item = .ok rendered := by
  cases hwidth : (nameAndWidth content).2 with
  | none => exact ⟨none, rfl, fun item _ => ⟨item, rfl⟩⟩
  | some w =>
    obtain ⟨⟨n, hn⟩, hitems⟩ := h.widths content hc w hwidth
    refine ⟨some n, ?_, fun item hitem => ?_⟩
    · show (width content w >>= fun n => pure (some n)) = _
      rw [hn]
      rfl
    · obtain ⟨z, hz⟩ := hitems item hitem
      refine ⟨zeroPadded n z, ?_⟩
      rw [Context.renderItem, padded, hz]

/-- The choices for a marker are its items in the order of the list, each with its text. -/
theorem choices_eq (h : IsLoopText source ps) (hc : content ∈ contents .loop ps)
    (hsearch : services.searchFault? (TokenKind.loop.token content) = none) :
    (Context.outermost source services expand).choices content
      = .ok ((itemsOf source content).map fun item => ⟨content, textOf content item, item⟩) := by
  obtain ⟨width?, hwidth, hrenders⟩ := h.exists_width hc
  have hlist : (Context.outermost source services expand).markerList content
      = .ok (valueOf source content) :=
    markerList_eq_valueOf (h.source_eq hc) (h.dollar_not_mem_valueOf hc)
  rw [Context.choices, hlist]
  show (checkSearch services .loop content >>= _) = _
  rw [Context.checkSearch_of_none hsearch]
  show ((nameAndWidth content).2.mapM (width content) >>= _) = _
  rw [hwidth]
  show List.mapM _ (itemsOf source content) = _
  rw [Outcome.mapM_eq_ok_iff, List.map_map]
  refine List.map_congr_left fun item hitem => ?_
  obtain ⟨rendered, hrendered⟩ := hrenders item hitem
  have htext : textOf content item = rendered := by
    refine textOf_of_rendering ?_
    rw [Context.rendering, hwidth]
    exact hrendered
  rw [hrendered, Function.comp_apply, htext]
  rfl

end IsLoopText

/-! ## Levels of the work list -/

/-- A branch on the work list: its text as a template, and the values that it keeps. -/
structure Pending where
  pieces : List Piece
  keep : Entries Text

namespace Pending

def branch (p : Pending) : Branch := ⟨render p.pieces, p.keep⟩

/-- The branch with an item in place of a marker. -/
def fill (p : Pending) (content item : Text) : Pending :=
  ⟨p.pieces.map (Piece.fillMarker content (textOf content item)),
    p.keep.put (nameAndWidth content).1 item⟩

/-- The branches with the items of each combination in place of the markers that are left. -/
def branches (source : Source) (markers : List Text) (p : Pending) : List Branch :=
  (combinations (markers.map (itemsOf source))).map fun combination =>
    Context.filling p.pieces p.keep (choiceOf (assigned markers combination))

/-- Whether some markers are left in a branch. -/
structure Has (p : Pending) (markers : List Text) : Prop where
  looping : ∀ q ∈ p.pieces, q.Looping
  apart : ApartMarkers p.pieces
  markers_eq : loopMarkers p.pieces = markers

variable {p : Pending} {markers : List Text}

theorem Has.fillsFirst (h : p.Has (content :: markers)) :
    Context.FillsFirst p.pieces content markers :=
  Context.fillsFirst_of_eraseDups h.apart h.markers_eq

theorem Has.close_not_mem (h : p.Has (content :: markers)) : '}' ∉ content := by
  have hmem : content ∈ contents .loop p.pieces := (h.fillsFirst.mem_iff content).mpr (.inl rfl)
  obtain ⟨tag, hpiece⟩ := mem_contents_iff.mp hmem
  exact (h.looping _ hpiece).2.2.2

/-- Filling the first marker leaves the others. -/
theorem Has.fill (h : p.Has (content :: markers)) {item : Text} (hnot : '$' ∉ textOf content item) :
    (p.fill content item).Has markers := by
  refine ⟨fun q hq => ?_, fun c hc d hd => ?_, h.fillsFirst.rest _⟩
  · obtain ⟨piece, hpiece, rfl⟩ := List.mem_map.mp hq
    unfold Piece.fillMarker
    split
    · exact hnot
    · exact h.looping piece hpiece
  · exact h.apart c (h.fillsFirst.mem_fillMarker hc).1 d (h.fillsFirst.mem_fillMarker hd).1

theorem Has.hasToken_eq (h : p.Has markers) :
    hasToken .loop p.branch.value = !markers.isEmpty := by
  rw [hasToken, branch, first?_render_looping h.looping, ← h.markers_eq, loopMarkers]
  cases contents .loop p.pieces with
  | nil => rfl
  | cons c cs =>
    rw [List.eraseDups_cons]
    rfl

theorem Has.branches_nil (h : p.Has []) : p.branches source [] = [p.branch] := by
  have hcontents : contents .loop p.pieces = [] := by
    cases hc : contents .loop p.pieces with
    | nil => rfl
    | cons c cs =>
      have hmarkers := h.markers_eq
      rw [loopMarkers, hc, List.eraseDups_cons] at hmarkers
      cases hmarkers
  show [Context.filling p.pieces p.keep _] = _
  rw [Context.filling_of_not_marker hcontents]
  rfl

/-- The combinations of all markers are those of the others, for each item of the first one. -/
theorem Has.flatMap_branches_fill (h : p.Has (content :: markers)) :
    ((itemsOf source content).flatMap fun item => (p.fill content item).branches source markers)
      = p.branches source (content :: markers) := by
  unfold Pending.branches
  rw [List.map_cons, combinations, List.map_flatMap]
  refine congrArg (List.flatMap · _) (funext fun item => ?_)
  rw [List.map_map]
  refine List.map_congr_left fun combination _ => ?_
  have hself : choiceOf (assigned (content :: markers) (item :: combination)) content
      = ⟨content, textOf content item, item⟩ := by
    rw [choiceOf, assigned_self]
  have hother : ∀ c ∈ contents .loop (p.fill content item).pieces,
      choiceOf (assigned markers combination) c
        = choiceOf (assigned (content :: markers) (item :: combination)) c := by
    intro c hc
    rw [choiceOf, choiceOf, assigned_of_ne (h.fillsFirst.mem_fillMarker hc).2]
  have hfilled := h.fillsFirst.filling_fillMarker h.markers_eq p.keep
    (choiceOf (assigned (content :: markers) (item :: combination)))
  rw [hself] at hfilled
  rw [Context.filling_congr hother]
  exact hfilled

end Pending

open Pending

/-- What the levels of the work list ask of the markers that are left: choices for each of them, with
texts without `$`, and that none ends in an earlier one. -/
structure Unrollable (ctx : Context) (markers : List Text) : Prop where
  choices : ∀ c ∈ markers, ctx.choices c
    = .ok ((itemsOf ctx.source c).map fun item => ⟨c, textOf c item, item⟩)
  dollar : ∀ c ∈ markers, ∀ item ∈ itemsOf ctx.source c, '$' ∉ textOf c item
  unnested : markers.Pairwise fun earlier later => ¬ EndsInMarker later earlier

variable {ctx : Context} {markers : List Text}

theorem Unrollable.tail (h : Unrollable ctx (content :: markers)) : Unrollable ctx markers :=
  ⟨fun c hc => h.choices c (List.mem_cons_of_mem _ hc),
    fun c hc => h.dollar c (List.mem_cons_of_mem _ hc), (List.pairwise_cons.mp h.unnested).2⟩

/-- A branch leads to those with each item of its first marker. -/
theorem Pending.Has.unrollFirst_eq {p : Pending} (h : p.Has (content :: markers))
    (hctx : Unrollable ctx (content :: markers)) :
    ctx.unrollFirst p.branch
      = .ok ((itemsOf ctx.source content).map fun item => (p.fill content item).branch) := by
  have hfirst : first? .loop p.branch.value = some content := by
    rw [Pending.branch, first?_render_looping h.looping, h.fillsFirst.first]
  have hends : ∀ c ∈ contents .loop p.pieces, ¬ EndsInMarker c content := by
    intro c hc
    rcases (h.fillsFirst.mem_iff c).mp hc with rfl | hlater
    · exact not_endsInMarker_self c
    · exact (List.pairwise_cons.mp hctx.unnested).1 c hlater
  rw [Context.unrollFirst_of_first hfirst, hctx.choices content List.mem_cons_self]
  show Except.ok _ = _
  rw [List.map_map]
  refine congrArg Except.ok (List.map_congr_left fun item _ => ?_)
  rw [Function.comp_apply, Branch.choose, Pending.branch,
    replaceAll_render_looping h.close_not_mem _ h.looping hends, ← render_map_fillMarker]
  rfl

/-- The branches of the next level, in the order in which they come up. -/
def level (source : Source) (content : Text) (pending : List Pending) : List Pending :=
  pending.flatMap fun p => (itemsOf source content).map (p.fill content)

section

variable {pending : List Pending}

theorem mapM_unrollFirst (hctx : Unrollable ctx (content :: markers))
    (hpending : ∀ p ∈ pending, p.Has (content :: markers)) :
    ((pending.map Pending.branch).mapM ctx.unrollFirst).map List.flatten
      = .ok ((level ctx.source content pending).map Pending.branch) := by
  have hmapM : (pending.map Pending.branch).mapM ctx.unrollFirst
      = .ok (pending.map fun p =>
          (itemsOf ctx.source content).map fun item => (p.fill content item).branch) := by
    rw [Outcome.mapM_eq_ok_iff, List.map_map, List.map_map]
    exact List.map_congr_left fun p hp => (hpending p hp).unrollFirst_eq hctx
  rw [hmapM, level, List.map_flatMap]
  refine congrArg Except.ok ?_
  rw [← List.flatMap_def]
  refine congrArg (List.flatMap · pending) (funext fun p => ?_)
  rw [List.map_map]
  rfl

theorem has_of_mem_level (hctx : Unrollable ctx (content :: markers))
    (hpending : ∀ p ∈ pending, p.Has (content :: markers)) {q : Pending}
    (hq : q ∈ level ctx.source content pending) : q.Has markers := by
  obtain ⟨p, hp, hq⟩ := List.mem_flatMap.mp hq
  obtain ⟨item, hitem, rfl⟩ := List.mem_map.mp hq
  exact (hpending p hp).fill (hctx.dollar content List.mem_cons_self item hitem)

theorem flatMap_branches_level {source : Source}
    (hpending : ∀ p ∈ pending, p.Has (content :: markers)) :
    (level source content pending).flatMap (Pending.branches source markers)
      = pending.flatMap (Pending.branches source (content :: markers)) := by
  rw [level, List.flatMap_assoc, List.flatMap_def, List.flatMap_def]
  refine congrArg List.flatten (List.map_congr_left fun p hp => ?_)
  rw [← (hpending p hp).flatMap_branches_fill, List.flatMap_map]

/-- The branches of a work list in which all branches have the same markers left. -/
theorem unrollFrom_pending {input : Text} {budget : Nat} (hne : markers ≠ [])
    (hbudget : markers.length ≤ budget) (hctx : Unrollable ctx markers)
    (hpending : ∀ p ∈ pending, p.Has markers) :
    ctx.unrollFrom input budget (pending.map Pending.branch)
      = .ok (pending.flatMap (Pending.branches ctx.source markers)) := by
  induction markers generalizing budget pending with
  | nil => exact absurd rfl hne
  | cons content markers ih =>
    obtain ⟨budget, rfl⟩ : ∃ n, budget = n + 1 :=
      Nat.exists_eq_succ_of_ne_zero (by simp at hbudget; omega)
    have hnext : ∀ q ∈ level ctx.source content pending, q.Has markers :=
      fun q hq => has_of_mem_level hctx hpending hq
    have hmarked : ∀ b ∈ (level ctx.source content pending).map Pending.branch,
        hasToken .loop b.value = !markers.isEmpty := by
      intro b hb
      obtain ⟨q, hq, rfl⟩ := List.mem_map.mp hb
      exact (hnext q hq).hasToken_eq
    have hopen : ((level ctx.source content pending).map Pending.branch).filter
        (fun b => hasToken .loop b.value)
        = if markers.isEmpty then [] else (level ctx.source content pending).map Pending.branch := by
      rw [List.filter_congr hmarked]
      cases markers <;> simp
    have hdone : ((level ctx.source content pending).map Pending.branch).filter
        (fun b => !hasToken .loop b.value)
        = if markers.isEmpty then (level ctx.source content pending).map Pending.branch else [] := by
      rw [List.filter_congr fun b hb => congrArg not (hmarked b hb)]
      cases markers <;> simp
    rw [Context.unrollFrom_succ (mapM_unrollFirst hctx hpending), hopen, hdone,
      ← flatMap_branches_level hpending]
    -- All branches of the next level are done, or none of them is.
    cases markers with
    | nil =>
      have hbranches : ∀ q ∈ level ctx.source content pending,
          q.branches ctx.source [] = [q.branch] := fun q hq => (hnext q hq).branches_nil
      rw [List.flatMap_def, List.map_congr_left hbranches, ← List.flatMap_def,
        ← List.map_eq_flatMap]
      show (ctx.unrollFrom input budget []).map _ = _
      rw [Context.unrollFrom_nil]
      exact congrArg Except.ok (List.append_nil _)
    | cons later markers =>
      have hrest : ctx.unrollFrom input budget ((level ctx.source content pending).map _) = _ :=
        ih (List.cons_ne_nil _ _) (Nat.le_of_succ_le_succ hbudget) hctx.tail hnext
      show (ctx.unrollFrom input budget ((level ctx.source content pending).map _)).map _ = _
      rw [hrest]
      rfl

end

theorem IsLoopText.unrollable (h : IsLoopText source ps)
    (hfinds : FindsTokens services ps)
    (hunnested : (loopMarkers ps).Pairwise fun earlier later => ¬ EndsInMarker later earlier) :
    Unrollable (Context.outermost source services expand) (loopMarkers ps) := by
  refine ⟨fun c hc => ?_, fun c hc item hitem => ?_, hunnested⟩
  · have hmem := mem_loopMarkers.mp hc
    exact h.choices_eq hmem (hfinds .loop c hmem)
  · have hnot := h.dollar_not_mem_valueOf (mem_loopMarkers.mp hc)
    exact dollar_not_mem_textOf (ItemList.dollar_not_mem_item hnot hitem)

theorem IsLoopText.unroll_eq (h : IsLoopText source ps)
    (hlimit : (loopMarkers ps).length ≤ services.limit)
    (hunrollable : Unrollable (Context.outermost source services expand) (loopMarkers ps))
    (keep : Entries Text) :
    (Context.outermost source services expand).unroll ⟨render ps, keep⟩
      = .ok (loopBranches source ps keep) := by
  have hhas : (Pending.mk ps keep).Has (loopMarkers ps) := ⟨h.looping, h.apartMarkers, rfl⟩
  have hall : loopBranches source ps keep
      = (Pending.mk ps keep).branches source (loopMarkers ps) := rfl
  show (Context.outermost source services expand).unroll (Pending.mk ps keep).branch = _
  rw [Context.unroll, hhas.hasToken_eq, hall]
  by_cases hmarkers : loopMarkers ps = []
  · rw [hmarkers] at hhas ⊢
    rw [hhas.branches_nil]
    rfl
  · have hfrom : (Context.outermost source services expand).unrollFrom (render ps) services.limit
        ([⟨ps, keep⟩].map Pending.branch) = _ :=
      unrollFrom_pending hmarkers hlimit hunrollable fun p hp => by
        obtain rfl := List.mem_singleton.mp hp
        exact hhas
    rw [if_pos (by simpa using hmarkers)]
    refine hfrom.trans ?_
    rw [List.flatMap_singleton]
    rfl

/-! ## Markers that are refused -/

/-- If no search can be built for the first marker, there are no branches. -/
theorem IsLoopText.unroll_of_searchFault (h : IsLoopText source ps) {message : Text}
    (hfirst : (contents .loop ps).head? = some content)
    (hsearch : services.searchFault? (TokenKind.loop.token content) = some message)
    (hlimit : services.limit ≠ 0) (keep : Entries Text) :
    (Context.outermost source services expand).unroll ⟨render ps, keep⟩
      = .error (.value (TokenKind.loop.token content) (.noSearch message)) := by
  have hc : content ∈ contents .loop ps := List.mem_of_head? hfirst
  have htoken : first? .loop (render ps) = some content := by
    rw [first?_render_looping h.looping, hfirst]
  have hchoices : (Context.outermost source services expand).choices content
      = .error (.value (TokenKind.loop.token content) (.noSearch message)) := by
    rw [Context.choices, markerList_eq_valueOf (h.source_eq hc) (h.dollar_not_mem_valueOf hc)]
    show (checkSearch services .loop content >>= _) = _
    rw [Context.checkSearch_of_some hsearch]
    rfl
  exact Context.unroll_of_choices_error htoken hchoices hlimit

/-- A text with one marker, which has no width. -/
theorem isLoopText_of_one {value : Text} (hlooping : ∀ p ∈ ps, p.Looping)
    (hone : ∀ c ∈ contents .loop ps, c = content) (hcolon : ':' ∉ content)
    (hvalue : source content = .ok (some value)) (hnot : '$' ∉ value) : IsLoopText source ps := by
  have hname : ∀ c ∈ contents .loop ps, nameAndWidth c = (content, none) := by
    intro c hc
    rw [hone c hc]
    exact nameAndWidth_of_not_mem hcolon
  refine ⟨hlooping, fun c hc d hd hdiffer => ?_, fun c hc => ?_, fun c hc w hw => ?_⟩
  · exact absurd ((hone c hc).trans (hone d hd).symm) hdiffer
  · rw [hname c hc]
    exact ⟨value, hvalue, hnot⟩
  · rw [hname c hc] at hw
    cases hw

/-! ## The product -/

/-- A text of literals and loop markers unrolls into a branch for each combination of the items of
its markers, in lexicographic order with the first marker varying slowest, if there are no more
markers than the limit, a search can be built for each of them, and none ends in an earlier one. -/
theorem unroll_eq_loopBranches (h : IsLoopText source ps)
    (hlimit : (loopMarkers ps).length ≤ services.limit)
    (hfinds : FindsTokens services ps)
    (hunnested : (loopMarkers ps).Pairwise fun earlier later => ¬ EndsInMarker later earlier)
    (keep : Entries Text) :
    (Context.outermost source services expand).unroll ⟨render ps, keep⟩
        = .ok (loopBranches source ps keep)
      ∧ (loopBranches source ps keep).length
        = ((loopMarkers ps).map fun c => (itemsOf source c).length).foldr (· * ·) 1
      ∧ ∀ r : Text → Text → Prop, (∀ c ∈ loopMarkers ps, (itemsOf source c).Pairwise r) →
        (combinations ((loopMarkers ps).map (itemsOf source))).Pairwise (List.Lex r) := by
  refine ⟨h.unroll_eq hlimit (h.unrollable hfinds hunnested) keep, ?_, fun r hr => ?_⟩
  · rw [loopBranches, List.length_map, length_combinations, List.map_map]
    rfl
  · refine pairwise_combinations fun items hitems => ?_
    obtain ⟨c, hc, rfl⟩ := List.mem_map.mp hitems
    exact hr c hc

/-- The variables of `countedText`. -/
def countedSource : Source := .ofEntries [(['x'], "1,2".toList), (['n'], "9:10".toList)]

/-- A text with a list that occurs twice and one with a width. -/
def countedText : List Piece :=
  [.ofKind .loop ['x'], .literal ['-'], .ofKind .loop ['n', ':', '2'], .literal ['/'],
    .ofKind .loop ['x']]

theorem unroll_countedText :
    (Context.outermost countedSource {} true).unroll ⟨render countedText, [(['k'], ['0'])]⟩
      = .ok [
        ⟨"1-09/1".toList, [(['k'], ['0']), (['x'], ['1']), (['n'], ['9'])]⟩,
        ⟨"1-10/1".toList, [(['k'], ['0']), (['x'], ['1']), (['n'], ['1', '0'])]⟩,
        ⟨"2-09/2".toList, [(['k'], ['0']), (['x'], ['2']), (['n'], ['9'])]⟩,
        ⟨"2-10/2".toList, [(['k'], ['0']), (['x'], ['2']), (['n'], ['1', '0'])]⟩] := by
  have hmem : ∀ c ∈ contents .loop countedText, c = ['x'] ∨ c = ['n', ':', '2'] := by decide
  have htext : IsLoopText countedSource countedText := by
    refine ⟨by decide, by decide, fun c hc => ?_, fun c hc w hw => ?_⟩
    · rcases hmem c hc with rfl | rfl
      · exact ⟨_, rfl, by decide⟩
      · exact ⟨_, rfl, by decide⟩
    · rcases hmem c hc with rfl | rfl
      · cases hw
      · obtain rfl := Option.some.inj hw
        refine ⟨⟨2, rfl⟩, fun item hitem => ?_⟩
        have hitem : item = ['9'] ∨ item = ['1', '0'] := by
          simpa using (show item ∈ [['9'], ['1', '0']] from hitem)
        rcases hitem with rfl | rfl
        · exact ⟨9, by decide⟩
        · exact ⟨10, by decide⟩
  have hproduct : (Context.outermost countedSource {} true).unroll
      ⟨render countedText, [(['k'], ['0'])]⟩ = .ok (loopBranches countedSource countedText _) :=
    (unroll_eq_loopBranches htext (by decide) (fun _ _ _ => rfl) (by decide) _).1
  rw [hproduct]
  exact congrArg Except.ok (by decide)

/-- The variables of `nestedText`. -/
def nestedSource : Source := .ofEntries [(['x'], "1,2".toList), (markerOpening ['x'], ['a'])]

/-- A marker, and one that ends in it. -/
def nestedText : List Piece :=
  [.ofKind .loop ['x'], .literal ['-'], .ofKind .loop (markerOpening ['x'])]

/-- A marker that ends in an earlier one loses its end, and is none any more when the earlier one is
filled. -/
theorem not_unroll_eq_loopBranches :
    IsLoopText nestedSource nestedText
      ∧ (loopMarkers nestedText).length ≤ ({} : Services).limit
      ∧ FindsTokens {} nestedText
      ∧ (Context.outermost nestedSource {} true).unroll ⟨render nestedText, []⟩
        = .ok [⟨"1-$LOOP\x7b1".toList, [(['x'], ['1'])]⟩, ⟨"2-$LOOP\x7b2".toList, [(['x'], ['2'])]⟩]
      ∧ loopBranches nestedSource nestedText []
        = [⟨"1-a".toList, [(['x'], ['1']), (markerOpening ['x'], ['a'])]⟩,
          ⟨"2-a".toList, [(['x'], ['2']), (markerOpening ['x'], ['a'])]⟩] := by
  have hmem : ∀ c ∈ contents .loop nestedText, c = ['x'] ∨ c = markerOpening ['x'] := by decide
  have htext : IsLoopText nestedSource nestedText := by
    refine ⟨by decide, by decide, fun c hc => ?_, fun c hc w hw => ?_⟩
    · rcases hmem c hc with rfl | rfl
      · exact ⟨_, rfl, by decide⟩
      · exact ⟨_, rfl, by decide⟩
    · rcases hmem c hc with rfl | rfl
      · cases hw
      · cases hw
  exact ⟨htext, by decide, fun _ _ _ => rfl, rfl, by decide⟩

end Substitution

end WorkflowControl
