import WorkflowControl.Proofs.ItemList.Ranges

/-!
Lists that are put together. The items of a list are those in front of a delimiter and those behind
it (`split_append`): parentheses are dropped, blanks trimmed and ranges written out in each piece on
its own. So a list that is joined from items is split into them, with parentheses anywhere in it, if
each item alone is split into itself (`split_eq_singleton`).
-/

namespace WorkflowControl.ItemList

open Text

/-- Whether a text is another one with parentheses put into it anywhere. -/
inductive Parenthesized : Text → Text → Prop
  | nil : Parenthesized [] []
  | keep {t written : Text} (c : Char) (h : Parenthesized t written) :
      Parenthesized (c :: t) (c :: written)
  | parenthesis {t written : Text} {c : Char} (hc : c = '(' ∨ c = ')') (h : Parenthesized t written) :
      Parenthesized t (c :: written)

/-- Whether an item begins with digits, a colon and digits. -/
def BeginsWithRange (item : Text) : Prop :=
  ∃ first last rest, item = first ++ ':' :: (last ++ rest) ∧ IsDigits first ∧ IsDigits last

/-- An item that stands for itself between delimiters: it is trimmed, has neither the delimiter nor
parentheses, and begins with no range. -/
structure IsPlainItem (delim : Char) (item : Text) : Prop where
  trimmed : item.trim = item
  not_mem : delim ∉ item
  bare : '(' ∉ item ∧ ')' ∉ item
  no_range : ¬ BeginsWithRange item

variable {delim : Char} {item t written : Text} {items : List Text}

/-! ## Parentheses -/

theorem Parenthesized.filter_eq (h : Parenthesized t written) :
    (written.filter fun c => c != '(' && c != ')') = t.filter fun c => c != '(' && c != ')' := by
  induction h with
  | nil => rfl
  | keep c _ ih => rw [List.filter_cons, List.filter_cons, ih]
  | parenthesis hc _ ih =>
    rw [List.filter_cons, ih]
    rcases hc with rfl | rfl
    · rfl
    · rfl

/-- A text has its parentheses put into what is left without them. -/
theorem parenthesized_filter (written : Text) :
    Parenthesized (written.filter fun c => c != '(' && c != ')') written := by
  induction written with
  | nil => exact .nil
  | cons c written ih =>
    by_cases hc : c = '(' ∨ c = ')'
    · rw [List.filter_cons_of_neg (by simpa [Decidable.imp_iff_not_or] using hc)]
      exact .parenthesis hc ih
    · rw [List.filter_cons_of_pos (by simpa using hc)]
      exact .keep c ih

/-- Parentheses do not count. -/
theorem Parenthesized.split_eq (h : Parenthesized t written) (delim : Char) :
    split written delim = split t delim := by
  rw [split, h.filter_eq, split]

/-! ## Delimiters -/

/-- The items of a list are those in front of a delimiter and those behind it. -/
theorem split_append (hdelim : delim ≠ '(' ∧ delim ≠ ')') (first rest : Text) :
    split (first ++ delim :: rest) delim = split first delim ++ split rest delim := by
  have hkept : (delim != '(' && delim != ')') = true := by simpa using hdelim
  rw [split, List.filter_append, List.filter_cons, if_pos hkept, splitOn_append,
    List.flatMap_append, split, split]

/-- A list that is joined from texts has the items of each of them. -/
theorem split_joinWith (hdelim : delim ≠ '(' ∧ delim ≠ ')') (hne : items ≠ []) :
    split (joinWith [delim] items) delim = items.flatMap fun item => split item delim := by
  induction items with
  | nil => exact absurd rfl hne
  | cons item rest ih =>
    cases rest with
    | nil => simp [joinWith]
    | cons next rest =>
      show split (item ++ [delim] ++ joinWith [delim] (next :: rest)) delim = _
      rw [List.append_assoc, List.singleton_append, split_append hdelim, ih (by simp)]
      rfl

/-! ## Items -/

theorem not_beginsWithRange_of_not_mem (h : ':' ∉ item) : ¬ BeginsWithRange item := by
  rintro ⟨first, last, rest, rfl, -⟩
  simp at h

/-- Whether an item begins with a range is decided at its first colon. -/
theorem beginsWithRange_append_iff {first rest : Text} (h : ':' ∉ first) :
    BeginsWithRange (first ++ ':' :: rest)
      ↔ IsDigits first ∧ rest.head?.any isAsciiDigit = true := by
  constructor
  · rintro ⟨first', last, behind, heq, hfirst, hlast⟩
    have hcolon : ':' ∉ first' := fun hmem => absurd (hfirst.2 _ hmem) (by decide)
    obtain ⟨rfl, rfl⟩ := append_inj_of_not_mem h hcolon heq
    obtain ⟨c, last, rfl⟩ := List.exists_cons_of_ne_nil hlast.1
    exact ⟨hfirst, hlast.2 c List.mem_cons_self⟩
  · rintro ⟨hfirst, hrest⟩
    cases rest with
    | nil => cases hrest
    | cons c rest => exact ⟨first, [c], rest, rfl, hfirst, by simp, by simpa using hrest⟩

/-- Only an item that begins with a range can be written out. -/
theorem expandItem_of_not_range (h : ¬ BeginsWithRange item) : expandItem item = [item] := by
  unfold expandItem
  cases hbounds : rangeBounds? item with
  | none => rfl
  | some bounds =>
    obtain ⟨first, last⟩ := bounds
    obtain ⟨rest, hitem, ⟨-, hfirstDigits⟩, ⟨-, hlastDigits⟩, -⟩ :=
      rangeBounds?_eq_some_iff.mp hbounds
    dsimp only
    rw [unsigned?_eq_bound? hfirstDigits, unsigned?_eq_bound? hlastDigits]
    cases hfirst : bound? first with
    | none => rfl
    | some a =>
      cases hlast : bound? last with
      | none => rfl
      | some b =>
        exact absurd ⟨first, last, rest, hitem, isDigits_of_bound? hfirst, isDigits_of_bound? hlast⟩ h

theorem split_eq_singleton (h : IsPlainItem delim item) : split item delim = [item] := by
  have hbare : (item.filter fun c => c != '(' && c != ')') = item := by
    apply List.filter_eq_self.mpr
    intro c hc
    have hopen : c ≠ '(' := fun heq => h.bare.1 (heq ▸ hc)
    have hclose : c ≠ ')' := fun heq => h.bare.2 (heq ▸ hc)
    simp [hopen, hclose]
  rw [split, hbare, splitOn_of_not_mem h.not_mem, List.flatMap_singleton, h.trimmed,
    expandItem_of_not_range h.no_range]

/-- A delimiter anywhere in a list parts its items, and items that are joined by it, whatever
parentheses are put between their characters, are the items of the list again. -/
theorem split_append_and_split_joined (hdelim : delim ≠ '(' ∧ delim ≠ ')') :
    (∀ first rest, split (first ++ delim :: rest) delim = split first delim ++ split rest delim)
      ∧ ∀ items, items ≠ [] → (∀ item ∈ items, IsPlainItem delim item) →
          ∀ written, Parenthesized (joinWith [delim] items) written → split written delim = items := by
  refine ⟨split_append hdelim, fun items hne hplain written hwritten => ?_⟩
  calc split written delim
      = split (joinWith [delim] items) delim := hwritten.split_eq delim
    _ = items.flatMap fun item => split item delim := split_joinWith hdelim hne
    _ = items.flatMap fun item => [item] :=
        List.flatMap_congr fun item hitem => split_eq_singleton (hplain item hitem)
    _ = items := List.flatMap_singleton' items

/-- An empty item, one with a blank in it, and two with a colon: behind one there is no digit, and the
digits around the other are not of ASCII. -/
def colonItems : List Text := ["".toList, "r i".toList, "1:x".toList, "٣:٤".toList]

theorem isPlainItem_colonItems : ∀ item ∈ colonItems, IsPlainItem ',' item := by
  have hbefore : ¬ BeginsWithRange ("1".toList ++ ':' :: "x".toList) :=
    mt (beginsWithRange_append_iff (by decide)).mp (by decide)
  have haround : ¬ BeginsWithRange ("٣".toList ++ ':' :: "٤".toList) :=
    mt (beginsWithRange_append_iff (by decide)).mp (by decide)
  intro item hitem
  simp only [colonItems, List.mem_cons, List.not_mem_nil, or_false] at hitem
  rcases hitem with rfl | rfl | rfl | rfl
  · exact ⟨by decide, by decide, by decide, not_beginsWithRange_of_not_mem (by decide)⟩
  · exact ⟨by decide, by decide, by decide, not_beginsWithRange_of_not_mem (by decide)⟩
  · exact ⟨by decide, by decide, by decide, hbefore⟩
  · exact ⟨by decide, by decide, by decide, haround⟩

theorem split_append_and_split_colonItems :
    (∀ first rest, split (first ++ ',' :: rest) ',' = split first ',' ++ split rest ',')
      ∧ joinWith [','] colonItems = ",r i,1:x,٣:٤".toList
      ∧ split "((,r) i,1:)(x,٣:٤)".toList ',' = colonItems := by
  have hdelim : ',' ≠ '(' ∧ ',' ≠ ')' := by decide
  obtain ⟨happend, hjoined⟩ := split_append_and_split_joined hdelim
  have hwritten := parenthesized_filter "((,r) i,1:)(x,٣:٤)".toList
  exact ⟨happend, by decide, hjoined colonItems (by decide) isPlainItem_colonItems _ hwritten⟩

end WorkflowControl.ItemList
