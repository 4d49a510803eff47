import WorkflowControl.Proofs.Substitution.Product

/-!
A loop marker in another one. The content of a marker goes up to the first brace and may have a `$`,
so the marker that is found first in `$LOOP{p$LOOP{b}}` is the outer one, without its last brace, and
the name that is looked up is `p$LOOP{b`. If there is a list of that name, its items stand in front
of the brace that is left over. Whatever it holds, each branch keeps an item of it
(`Unrolls.mem_keys`), so filling the inner marker first would give other branches, unless there are
none (`unroll_nestedMarker`).
-/

namespace WorkflowControl

open Text Token

namespace Substitution

/-- A marker with another one at the end of its name. -/
def nestedMarker (start name : Text) : Text :=
  TokenKind.loop.token (start ++ TokenKind.loop.token name)

/-- What stands between the first brace that opens and the first one that closes in a nested marker.
-/
def outerName (start name : Text) : Text := start ++ markerOpening name

/-- The branches of a nested marker if the inner one is filled first: the items of the list of each
item of the inner list, in order. -/
def innerFirst (source : Source) (start name : Text) (keep : Entries Text) : List Branch :=
  (itemsOf source name).flatMap fun item =>
    (itemsOf source (start ++ item)).map fun inner =>
      ⟨inner, (keep.put name item).put (start ++ item) inner⟩

/-- A list, and further ones whose names are made of its items, none of them with a `$`. -/
structure NestedLists (source : Source) (start name : Text) : Prop where
  start_ne : start ≠ []
  start_plain : '$' ∉ start ∧ '}' ∉ start ∧ ':' ∉ start
  name_ne : name ≠ []
  name_plain : '}' ∉ name ∧ ':' ∉ name
  list : ∃ value, source name = .ok (some value) ∧ '$' ∉ value
  lists : ∀ item ∈ itemsOf source name, ':' ∉ item
    ∧ ∃ value, source (start ++ item) = .ok (some value) ∧ '$' ∉ value

/-! ## The marker that is found -/

/-- A nested marker as a text of one marker and a brace. -/
def nestedPieces (start name : Text) : List Piece :=
  [.ofKind .loop (outerName start name), .literal ['}']]

theorem nestedMarker_eq_render (start name : Text) :
    nestedMarker start name = render (nestedPieces start name) := by
  simp [nestedMarker, nestedPieces, outerName, TokenKind.token, markerOpening, render, Piece.text,
    Piece.ofKind]

variable {source : Source} {services : Services} {expand : Bool} {start name : Text}

/-- The items that are chosen for markers do not take values out of the branch. -/
theorem Context.Unrolls.mem_keys {ctx : Context} {branch final : Branch}
    (h : ctx.Unrolls branch final) {key : Text} (hkey : key ∈ branch.keep.keys) :
    key ∈ final.keep.keys := by
  induction h with
  | closed _ => exact hkey
  | choose _ _ _ _ ih => exact ih (Entries.mem_keys_put.mpr (.inl hkey))

namespace NestedLists

theorem outerName_ne (h : NestedLists source start name) : outerName start name ≠ [] :=
  List.append_ne_nil_of_left_ne_nil h.start_ne _

theorem outerName_plain (h : NestedLists source start name) :
    '}' ∉ outerName start name ∧ ':' ∉ outerName start name := by
  obtain ⟨-, hclose, hcolon⟩ := h.start_plain
  obtain ⟨hclose', hcolon'⟩ := h.name_plain
  simp [outerName, markerOpening, TokenKind.tag, hclose, hcolon, hclose', hcolon']

theorem nameAndWidth_outerName (h : NestedLists source start name) :
    nameAndWidth (outerName start name) = (outerName start name, none) :=
  nameAndWidth_of_not_mem h.outerName_plain.2

theorem looping (h : NestedLists source start name) :
    ∀ p ∈ nestedPieces start name, p.Looping := by
  intro p hp
  rcases List.mem_cons.mp hp with rfl | hp
  · exact ⟨rfl, .refl _, h.outerName_ne, h.outerName_plain.1⟩
  · obtain rfl := List.mem_singleton.mp hp
    exact (by decide : '$' ∉ ['}'])

theorem first?_nestedMarker (h : NestedLists source start name) :
    first? .loop (nestedMarker start name) = some (outerName start name) := by
  rw [nestedMarker_eq_render, first?_render_looping h.looping]
  rfl

/-- The outer name is longer than the inner one, and it has a `$`, as none of the names that are
made of items has. -/
theorem outerName_not_mem (h : NestedLists source start name) {keep : Entries Text}
    (hkeep : outerName start name ∉ keep.keys) {b : Branch}
    (hb : b ∈ innerFirst source start name keep) : outerName start name ∉ b.keep.keys := by
  obtain ⟨item, hitem, hb⟩ := List.mem_flatMap.mp hb
  obtain ⟨inner, -, rfl⟩ := List.mem_map.mp hb
  obtain ⟨value, hvalue, hnot⟩ := h.list
  rw [Entries.mem_keys_put, Entries.mem_keys_put]
  rintro ((hmem | hname) | houter)
  · exact hkeep hmem
  · have hlength := congrArg List.length hname
    simp only [outerName, markerOpening, List.length_append, List.length_cons] at hlength
    omega
  · have hitemEq : markerOpening name = item := List.append_cancel_left houter
    have hvalueOf : valueOf source name = value := by
      refine valueOf_eq ?_
      rw [nameAndWidth_of_not_mem h.name_plain.2]
      exact hvalue
    rw [itemsOf, hvalueOf] at hitem
    refine ItemList.dollar_not_mem_item hnot hitem ?_
    rw [← hitemEq]
    exact List.mem_cons_self

/-! ## Filling it -/

/-- Without a value for the outer name the marker cannot be filled. -/
theorem unroll_of_unbound (h : NestedLists source start name)
    (hnone : source (outerName start name) = .ok none) (hlimit : services.limit ≠ 0)
    (keep : Entries Text) :
    (Context.outermost source services expand).unroll ⟨nestedMarker start name, keep⟩
      = .error (.lookup (outerName start name)) := by
  have hsource : (Context.outermost source services expand).source (outerName start name)
      = .ok none := hnone
  refine Context.unroll_of_choices_error h.first?_nestedMarker ?_ hlimit
  rw [Context.choices, Context.markerList, h.nameAndWidth_outerName, hsource]
  rfl

/-- With a value for the outer name a nested marker is one that can be filled. -/
theorem isLoopText (h : NestedLists source start name) {value : Text}
    (hvalue : source (outerName start name) = .ok (some value)) (hnot : '$' ∉ value) :
    IsLoopText source (nestedPieces start name) :=
  isLoopText_of_one h.looping (fun _ hc => List.mem_singleton.mp hc) h.outerName_plain.2 hvalue hnot

/-- The items of the outer name stand in front of the brace that is left over. -/
theorem loopBranches_nestedPieces (h : NestedLists source start name) {value : Text}
    (hvalue : source (outerName start name) = .ok (some value)) (keep : Entries Text) :
    loopBranches source (nestedPieces start name) keep
      = (ItemList.split value ',').map fun item =>
          ⟨item ++ ['}'], keep.put (outerName start name) item⟩ := by
  have hitems : itemsOf source (outerName start name) = ItemList.split value ',' := by
    rw [itemsOf, valueOf_eq (by rw [h.nameAndWidth_outerName]; exact hvalue)]
  have hmarkers : loopMarkers (nestedPieces start name) = [outerName start name] := rfl
  have hcombinations : ∀ items : List Text, combinations [items] = items.map fun item => [item] :=
    fun items => List.map_eq_flatMap.symm
  rw [loopBranches, hmarkers, List.map_singleton, hitems, hcombinations, List.map_map]
  refine List.map_congr_left fun item _ => ?_
  have htext : textOf (outerName start name) item = item :=
    textOf_of_rendering (Context.rendering_of_none (by rw [h.nameAndWidth_outerName]) item)
  have hfilled : Context.filling (nestedPieces start name) keep
      (choiceOf (assigned [outerName start name] [item]))
        = ⟨textOf (outerName start name) (assigned [outerName start name] [item] _) ++ ['}'],
          keep.put (nameAndWidth (outerName start name)).1
            (assigned [outerName start name] [item] _)⟩ := rfl
  rw [Function.comp_apply, hfilled, assigned_self, htext, h.nameAndWidth_outerName]

/-- With a list for the outer name, the marker is filled with its items, if a search can be built
for it. -/
theorem unroll_of_bound (h : NestedLists source start name) {value : Text}
    (hvalue : source (outerName start name) = .ok (some value)) (hnot : '$' ∉ value)
    (hlimit : services.limit ≠ 0) (keep : Entries Text) :
    (Context.outermost source services expand).unroll ⟨nestedMarker start name, keep⟩
      = match services.searchFault? (TokenKind.loop.token (outerName start name)) with
        | none => .ok ((ItemList.split value ',').map fun item =>
            ⟨item ++ ['}'], keep.put (outerName start name) item⟩)
        | some message =>
          .error (.value (TokenKind.loop.token (outerName start name)) (.noSearch message)) := by
  have htext := h.isLoopText hvalue hnot
  have hmarkers : loopMarkers (nestedPieces start name) = [outerName start name] := rfl
  rw [nestedMarker_eq_render]
  cases hsearch : services.searchFault? (TokenKind.loop.token (outerName start name)) with
  | some message => exact htext.unroll_of_searchFault rfl hsearch hlimit keep
  | none =>
    have hfinds : FindsTokens services (nestedPieces start name) := by
      intro kind c hc
      obtain ⟨tag, hp⟩ := mem_contents_iff.mp hc
      obtain ⟨rfl, -⟩ := htext.looping _ hp
      obtain rfl : c = outerName start name := List.mem_singleton.mp hc
      exact hsearch
    have hunnested : (loopMarkers (nestedPieces start name)).Pairwise
        fun earlier later => ¬ EndsInMarker later earlier := by
      rw [hmarkers]
      exact List.pairwise_singleton _ _
    rw [htext.unroll_eq (Nat.one_le_iff_ne_zero.mpr hlimit) (htext.unrollable hfinds hunnested),
      h.loopBranches_nestedPieces hvalue]

/-- The list of the outer name is looked up in any case. -/
theorem outerName_mem_keys (h : NestedLists source start name) {keep : Entries Text}
    {branches : List Branch}
    (hok : (Context.outermost source services expand).unroll ⟨nestedMarker start name, keep⟩
      = .ok branches) {b : Branch} (hb : b ∈ branches) : outerName start name ∈ b.keep.keys := by
  have hunrolls := (Context.mem_unroll_iff hok).mp hb
  obtain ⟨options, hoptions, choice, hchoice, hrest⟩ :=
    (Context.unrolls_of_first h.first?_nestedMarker).mp hunrolls
  refine hrest.mem_keys (Entries.mem_keys_put.mpr (.inr ?_))
  obtain ⟨raw, -, -, hmem⟩ := Context.choices_eq_ok hoptions
  obtain ⟨item, -, rendered, -, rfl⟩ := (hmem choice).mp hchoice
  rw [h.nameAndWidth_outerName]

end NestedLists

/-- A nested marker is not filled from the inside. Its outer name is looked up: it is an error if
there is no such name, and if it has a value without `$`, the items of this value stand in front of
the last brace, unless no search can be built for the marker. In any case each branch keeps an item
of it, so the branches are those of the inner lists if and only if there are none. -/
theorem unroll_nestedMarker (h : NestedLists source start name) (hlimit : services.limit ≠ 0)
    (keep : Entries Text) :
    let outcome := (Context.outermost source services expand).unroll ⟨nestedMarker start name, keep⟩
    (source (outerName start name) = .ok none →
        outcome = .error (.lookup (outerName start name)))
      ∧ (∀ value, source (outerName start name) = .ok (some value) → '$' ∉ value →
        outcome = match services.searchFault? (TokenKind.loop.token (outerName start name)) with
          | none => .ok ((ItemList.split value ',').map fun item =>
              ⟨item ++ ['}'], keep.put (outerName start name) item⟩)
          | some message =>
            .error (.value (TokenKind.loop.token (outerName start name)) (.noSearch message)))
      ∧ (∀ branches, outcome = .ok branches →
        ∀ b ∈ branches, outerName start name ∈ b.keep.keys)
      ∧ (outerName start name ∉ keep.keys →
        (outcome = .ok (innerFirst source start name keep)
          ↔ innerFirst source start name keep = [] ∧ outcome = .ok [])) := by
  intro outcome
  refine ⟨fun hnone => h.unroll_of_unbound hnone hlimit keep,
    fun value hvalue hnot => h.unroll_of_bound hvalue hnot hlimit keep,
    fun branches hok b hb => h.outerName_mem_keys hok hb,
    fun hkeep => ⟨fun hok => ?_, fun hgiven => ?_⟩⟩
  · have hnil : innerFirst source start name keep = [] := by
      refine List.eq_nil_iff_forall_not_mem.mpr fun b hb => ?_
      exact h.outerName_not_mem hkeep hb (h.outerName_mem_keys hok hb)
    exact ⟨hnil, hnil ▸ hok⟩
  · obtain ⟨hnil, hok⟩ := hgiven
    rw [hnil, hok]

/-- A list of two numbers, and a list for each of them behind `p`. -/
def numberedSource : Source :=
  .ofEntries [(['b'], "1,2".toList), (['p', '1'], ['x']), (['p', '2'], "y,z".toList)]

/-- The inner list is not looked up, as there is no list of the outer name. -/
theorem not_unroll_nestedMarker :
    NestedLists numberedSource ['p'] ['b']
      ∧ innerFirst numberedSource ['p'] ['b'] [] = [
        ⟨['x'], [(['b'], ['1']), (['p', '1'], ['x'])]⟩,
        ⟨['y'], [(['b'], ['2']), (['p', '2'], ['y'])]⟩,
        ⟨['z'], [(['b'], ['2']), (['p', '2'], ['z'])]⟩]
      ∧ (Context.outermost numberedSource {} false).unroll ⟨nestedMarker ['p'] ['b'], []⟩
        = .error (.lookup ("p$LOOP\x7bb".toList)) := by
  have hnames : NestedLists numberedSource ['p'] ['b'] := by
    refine ⟨by decide, by decide, by decide, by decide, ⟨_, rfl, by decide⟩, fun item hitem => ?_⟩
    have hitem : item = ['1'] ∨ item = ['2'] := by
      simpa using (show item ∈ [['1'], ['2']] from hitem)
    rcases hitem with rfl | rfl
    · exact ⟨by decide, _, rfl, by decide⟩
    · exact ⟨by decide, _, rfl, by decide⟩
  have hlimit : ({} : Services).limit ≠ 0 := by decide
  exact ⟨hnames, by decide, (unroll_nestedMarker hnames hlimit []).1 rfl⟩

end Substitution

end WorkflowControl
