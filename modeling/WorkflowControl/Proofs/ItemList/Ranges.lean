import Mathlib.Algebra.Order.BigOperators.Group.List
import Mathlib.Algebra.Order.Ring.Nat
import Mathlib.Data.List.Intervals
import WorkflowControl.Proofs.ItemList
import WorkflowControl.Proofs.Text.Integer

/-!
Which items of a list are written out as numbers. An item that is a range, two numerals with a colon
between them and nothing else, stands for the numbers from the first to the second, and any other
item stands for itself (`exactSplit`). The numerals are looked for at the start of an item only, so
an item that goes on behind a range is written out too, and what it goes on with is lost. This
happens to no other item (`expandItem_cases`), and it always shows in the result, since numbers have
no colon (`split_eq_exactSplit_iff`).
-/

namespace WorkflowControl

namespace Text

theorem isDigit_of_isAsciiDigit {c : Char} (h : isAsciiDigit c = true) : isDigit c = true := by
  simp only [isDigit, inRanges, List.any_eq_true, Bool.and_eq_true, decide_eq_true_eq]
  exact ⟨(0x30, 0x39), List.mem_cons_self, toNat_of_isAsciiDigit h⟩

end Text

namespace ItemList

open Text

/-! ## Lists in which only ranges are written out -/

/-- The bound of a range that a text is: a number below `2 ^ 64`, in ASCII digits. -/
def bound? (t : Text) : Option Nat := (digits? t).filter (· < 2 ^ 64)

/-- The bounds of a range, which is two bounds with a colon between them and nothing else. -/
def range? (item : Text) : Option (Nat × Nat) :=
  match splitOn ':' item with
  | [first, last] => do return (← bound? first, ← bound? last)
  | _ => none

/-- What an item stands for: a range for its numbers in order, any other item for itself. -/
def exactItems (item : Text) : List Text :=
  match range? item with
  | some (a, b) => ((List.range (b + 1)).filter (a ≤ ·)).map ofNat
  | none => [item]

/-- The pieces of a list between its delimiters, trimmed and without parentheses. -/
def pieces (text : Text) (delim : Char) : List Text :=
  (splitOn delim (text.filter fun c => c != '(' && c != ')')).map trim

/-- The items of a list in which ranges and nothing else are written out. -/
def exactSplit (text : Text) (delim : Char) : List Text := (pieces text delim).flatMap exactItems

/-- Whether an item goes on behind a range that it begins with. A digit would be one more digit of
the second bound, so it goes on with another character. -/
def GoesOn (item : Text) : Prop :=
  ∃ first last rest, item = first ++ ':' :: (last ++ rest) ∧ (bound? first).isSome
    ∧ (bound? last).isSome ∧ rest ≠ [] ∧ ∀ c ∈ rest.head?, isDigit c = false

theorem split_eq_flatMap (text : Text) (delim : Char) :
    split text delim = (pieces text delim).flatMap expandItem := by
  simp only [split, pieces, List.flatMap_map]

/-! ## The bounds of an item -/

theorem colon_not_mem_digits {t : Text} (h : ∀ c ∈ t, isDigit c = true) : ':' ∉ t := by
  intro hmem
  have hcolon := h ':' hmem
  exact absurd hcolon (by decide)

/-- The bounds that an item begins with end where a character is no digit. -/
theorem rangeBounds?_eq_some_iff {item first last : Text} :
    rangeBounds? item = some (first, last)
      ↔ ∃ rest, item = first ++ ':' :: (last ++ rest) ∧ (first ≠ [] ∧ ∀ c ∈ first, isDigit c = true)
        ∧ (last ≠ [] ∧ ∀ c ∈ last, isDigit c = true) ∧ ∀ c ∈ rest.head?, isDigit c = false := by
  constructor
  · intro h
    unfold rangeBounds? at h
    dsimp only at h
    split at h
    · rename_i rest hrest
      split at h
      · cases h
      · rename_i hne
        simp only [Bool.or_eq_true, List.isEmpty_iff, not_or] at hne
        obtain ⟨rfl, rfl⟩ := Prod.mk.inj (Option.some.inj h)
        refine ⟨rest.dropWhile isDigit, ?_, ⟨hne.1, fun c hc => of_mem_takeWhile hc⟩,
          ⟨hne.2, fun c hc => of_mem_takeWhile hc⟩, head_dropWhile isDigit rest⟩
        rw [List.takeWhile_append_dropWhile, ← hrest, List.takeWhile_append_dropWhile]
    · cases h
  · rintro ⟨rest, rfl, ⟨hfirst, hfirstDigits⟩, ⟨hlast, hlastDigits⟩, hrest⟩
    have hcolon : ∀ c ∈ (':' :: (last ++ rest)).head?, isDigit c = false := by
      intro c hc
      obtain rfl := Option.some.inj hc
      decide
    unfold rangeBounds?
    simp only [takeWhile_append_stop hfirstDigits hcolon, dropWhile_append_stop hfirstDigits hcolon,
      takeWhile_append_stop hlastDigits hrest]
    simp [hfirst, hlast]

/-- An item without a colon is written as it is. -/
theorem expandItem_of_not_mem {item : Text} (h : ':' ∉ item) : expandItem item = [item] := by
  unfold expandItem
  cases hbounds : rangeBounds? item with
  | none => rfl
  | some bounds =>
    obtain ⟨rest, hitem, -⟩ := rangeBounds?_eq_some_iff.mp hbounds
    rw [hitem] at h
    simp at h

theorem split_of_not_mem {text : Text} (h : ':' ∉ text) (delim : Char) :
    split text delim = pieces text delim := by
  have hpieces : ∀ piece ∈ pieces text delim, expandItem piece = [piece] := by
    intro piece hpiece
    obtain ⟨part, hpart, rfl⟩ := List.mem_map.mp hpiece
    refine expandItem_of_not_mem fun hmem => h ?_
    have hin := mem_of_mem_splitOn hpart ((trim_infix_self part).subset hmem)
    exact (List.mem_filter.mp hin).1
  rw [split_eq_flatMap, List.flatMap_def, List.map_congr_left hpieces, ← List.flatMap_def,
    List.flatMap_singleton']

/-- A list with a delimiter has an item behind its first one. -/
theorem tail_split_ne_nil {text : Text} {delim : Char} (hdelim : delim ∈ text)
    (hparenthesis : delim ≠ '(' ∧ delim ≠ ')') (hcolon : ':' ∉ text) :
    (split text delim).tail ≠ [] := by
  have hmem : delim ∈ text.filter fun c => c != '(' && c != ')' :=
    List.mem_filter.mpr ⟨hdelim, by simp [hparenthesis]⟩
  obtain ⟨first, rest, htext, hfirst⟩ := List.eq_append_cons_of_mem hmem
  rw [split_of_not_mem hcolon, pieces, htext, splitOn_append, splitOn_of_not_mem hfirst,
    List.singleton_append, List.map_cons, List.tail_cons]
  exact fun hnil => splitOn_ne_nil delim rest (List.map_eq_nil_iff.mp hnil)

/-- A run of digits has no sign, so it is read as the bound that it is. -/
theorem unsigned?_eq_bound? {t : Text} (h : ∀ c ∈ t, isDigit c = true) :
    unsigned? 64 t = bound? t := by
  unfold unsigned? bound?
  split
  · have hplus := h '+' List.mem_cons_self
    exact absurd hplus (by decide)
  · rfl

theorem isDigits_of_bound? {t : Text} {n : Nat} (h : bound? t = some n) : IsDigits t :=
  (digits?_eq_some_iff.mp (Option.filter_eq_some_iff.mp h).1).1

theorem digits_of_bound? {t : Text} {n : Nat} (h : bound? t = some n) :
    t ≠ [] ∧ ∀ c ∈ t, isDigit c = true := by
  obtain ⟨hne, hascii⟩ := isDigits_of_bound? h
  exact ⟨hne, fun c hc => isDigit_of_isAsciiDigit (hascii c hc)⟩

theorem range?_eq_some_iff {item : Text} {a b : Nat} :
    range? item = some (a, b) ↔ ∃ first last, item = first ++ ':' :: last
      ∧ bound? first = some a ∧ bound? last = some b := by
  constructor
  · intro h
    unfold range? at h
    split at h
    · rename_i first last hsplit
      have hjoin := joinWith_splitOn ':' item
      rw [hsplit] at hjoin
      refine ⟨first, last, by simpa [joinWith] using hjoin.symm, ?_⟩
      cases hfirst : bound? first <;> cases hlast : bound? last <;> simp_all
    · cases h
  · rintro ⟨first, last, rfl, hfirst, hlast⟩
    have hfirstColon := colon_not_mem_digits (digits_of_bound? hfirst).2
    have hlastColon := colon_not_mem_digits (digits_of_bound? hlast).2
    simp [range?, splitOn_append, splitOn_of_not_mem hfirstColon, splitOn_of_not_mem hlastColon,
      hfirst, hlast]

/-! ## What is written out -/

theorem numerals_eq (a b : Nat) :
    numerals a b = ((List.range (b + 1)).filter (a ≤ ·)).map ofNat := by
  have hrange : List.range' a (b + 1 - a) = (List.range (b + 1)).filter (a ≤ ·) := by
    calc List.range' a (b + 1 - a)
        = List.Ico (max 0 a) (b + 1) := by rw [Nat.zero_max]; rfl
      _ = (List.Ico 0 (b + 1)).filter (a ≤ ·) := (List.Ico.filter_le 0 (b + 1) a).symm
      _ = (List.range (b + 1)).filter (a ≤ ·) := by rw [List.Ico.zero_bot]
  rw [numerals, hrange]

/-- An item that begins with two bounds is written out, whatever follows them. -/
theorem expandItem_of_bounds {first last rest : Text} {a b : Nat} (hfirst : bound? first = some a)
    (hlast : bound? last = some b) (hrest : ∀ c ∈ rest.head?, isDigit c = false) :
    expandItem (first ++ ':' :: (last ++ rest)) = numerals a b := by
  have hbounds : rangeBounds? (first ++ ':' :: (last ++ rest)) = some (first, last) :=
    rangeBounds?_eq_some_iff.mpr
      ⟨rest, rfl, digits_of_bound? hfirst, digits_of_bound? hlast, hrest⟩
  simp [expandItem, hbounds, unsigned?_eq_bound? (digits_of_bound? hfirst).2,
    unsigned?_eq_bound? (digits_of_bound? hlast).2, hfirst, hlast]

theorem exactItems_of_goesOn {item : Text} (h : GoesOn item) : exactItems item = [item] := by
  obtain ⟨first, last, rest, rfl, hfirst, hlast, hne, hrest⟩ := h
  obtain ⟨a, hfirst⟩ := Option.isSome_iff_exists.mp hfirst
  obtain ⟨b, hlast⟩ := Option.isSome_iff_exists.mp hlast
  have hnone : range? (first ++ ':' :: (last ++ rest)) = none := by
    rw [Option.eq_none_iff_forall_ne_some]
    rintro ⟨a', b'⟩ hrange
    obtain ⟨first', last', heq, hfirst', hlast'⟩ := range?_eq_some_iff.mp hrange
    -- The colon is the first one on both sides, and what is behind it is digits on one of them only.
    have hsplit := congrArg (splitOn ':') heq
    rw [splitOn_append, splitOn_append,
      splitOn_of_not_mem (colon_not_mem_digits (digits_of_bound? hfirst).2),
      splitOn_of_not_mem (colon_not_mem_digits (digits_of_bound? hfirst').2),
      splitOn_of_not_mem (colon_not_mem_digits (digits_of_bound? hlast').2),
      List.singleton_append, List.singleton_append] at hsplit
    have hbehind : last ++ rest = last' := by
      have hjoin := joinWith_splitOn ':' (last ++ rest)
      rw [(List.cons.inj hsplit).2] at hjoin
      exact hjoin.symm
    obtain ⟨c, rest, rfl⟩ := List.exists_cons_of_ne_nil hne
    have hdigit := (digits_of_bound? hlast').2 c (by simp [← hbehind])
    rw [hrest c rfl] at hdigit
    cases hdigit
  simp [exactItems, hnone]

/-- Only an item that goes on behind a range is written out though it should not be. -/
theorem expandItem_cases (item : Text) :
    expandItem item = exactItems item ∧ ¬ GoesOn item
      ∨ GoesOn item ∧ exactItems item = [item] ∧ ∃ a b, expandItem item = numerals a b := by
  by_cases hgoesOn : GoesOn item
  · refine .inr ⟨hgoesOn, exactItems_of_goesOn hgoesOn, ?_⟩
    obtain ⟨first, last, rest, rfl, hfirst, hlast, -, hrest⟩ := hgoesOn
    obtain ⟨a, ha⟩ := Option.isSome_iff_exists.mp hfirst
    obtain ⟨b, hb⟩ := Option.isSome_iff_exists.mp hlast
    exact ⟨a, b, expandItem_of_bounds ha hb hrest⟩
  refine .inl ⟨?_, hgoesOn⟩
  cases hrange : range? item with
  | some bounds =>
    obtain ⟨a, b⟩ := bounds
    obtain ⟨first, last, rfl, hfirst, hlast⟩ := range?_eq_some_iff.mp hrange
    have hexpand : expandItem (first ++ ':' :: (last ++ [])) = numerals a b :=
      expandItem_of_bounds hfirst hlast (by simp)
    rw [List.append_nil] at hexpand
    simp [exactItems, hrange, hexpand, numerals_eq]
  | none =>
    have hexact : exactItems item = [item] := by simp [exactItems, hrange]
    rw [hexact]
    unfold expandItem
    split
    · rfl
    · rename_i first last hbounds
      obtain ⟨rest, hitem, ⟨-, hfirstDigits⟩, ⟨-, hlastDigits⟩, hrest⟩ :=
        rangeBounds?_eq_some_iff.mp hbounds
      rw [unsigned?_eq_bound? hfirstDigits, unsigned?_eq_bound? hlastDigits]
      cases hfirst : bound? first with
      | none => rfl
      | some a =>
        cases hlast : bound? last with
        | none => rfl
        | some b =>
          -- Both bounds are there, so the item is a range or goes on behind one.
          cases rest with
          | nil =>
            rw [List.append_nil] at hitem
            rw [range?_eq_some_iff.mpr ⟨first, last, hitem, hfirst, hlast⟩] at hrange
            cases hrange
          | cons c rest =>
            exact absurd ⟨first, last, c :: rest, hitem, by simp [hfirst], by simp [hlast],
              by simp, hrest⟩ hgoesOn

/-! ## Lists -/

theorem colon_not_mem_numerals {a b : Nat} {item : Text} (h : item ∈ numerals a b) :
    ':' ∉ item := by
  obtain ⟨n, -, rfl⟩ := List.mem_map.mp h
  intro hmem
  exact absurd ((isDigits_ofNat n).2 _ hmem) (by decide)

/-- The number of items with a colon. -/
def colonCount (items : List Text) : Nat := items.countP fun item => item.contains ':'

theorem colonCount_lt_of_goesOn {item : Text} (h : GoesOn item) :
    colonCount (expandItem item) < colonCount (exactItems item) := by
  rcases expandItem_cases item with ⟨-, hnot⟩ | ⟨-, hexact, a, b, hexpand⟩
  · exact absurd h hnot
  · obtain ⟨first, last, rest, rfl, -⟩ := h
    have hnumerals : colonCount (numerals a b) = 0 := by
      apply List.countP_eq_zero.mpr
      intro item hitem
      simpa using colon_not_mem_numerals hitem
    rw [hexpand, hexact, hnumerals]
    simp [colonCount]

theorem colonCount_le (item : Text) :
    colonCount (expandItem item) ≤ colonCount (exactItems item) := by
  rcases expandItem_cases item with ⟨heq, -⟩ | ⟨hgoesOn, -⟩
  · rw [heq]
  · exact Nat.le_of_lt (colonCount_lt_of_goesOn hgoesOn)

/-- A list is split with ranges and nothing else written out if and only if none of its items goes on
behind a range. -/
theorem split_eq_exactSplit_iff (text : Text) (delim : Char) :
    split text delim = exactSplit text delim ↔ ∀ item ∈ pieces text delim, ¬ GoesOn item := by
  rw [split_eq_flatMap, exactSplit]
  constructor
  · intro heq item hitem hgoesOn
    have hcount : colonCount ((pieces text delim).flatMap expandItem)
        < colonCount ((pieces text delim).flatMap exactItems) := by
      simp only [colonCount, List.countP_flatMap]
      apply List.sum_lt_sum
      · exact fun item _ => colonCount_le item
      · exact ⟨item, hitem, colonCount_lt_of_goesOn hgoesOn⟩
    rw [heq] at hcount
    omega
  · intro hnone
    apply List.flatMap_congr
    intro item hitem
    rcases expandItem_cases item with ⟨heq, -⟩ | ⟨hgoesOn, -⟩
    · exact heq
    · exact absurd hgoesOn (hnone item hitem)

/-- The letter behind the range is lost, and the item is three numbers in place of itself. -/
theorem not_split_eq_exactSplit_suffixedRange :
    split ['1', ':', '3', 'x'] ',' = [['1'], ['2'], ['3']]
      ∧ exactSplit ['1', ':', '3', 'x'] ',' = [['1', ':', '3', 'x']]
      ∧ split ['1', ':', '3', 'x'] ',' ≠ exactSplit ['1', ':', '3', 'x'] ',' := by
  refine ⟨by decide, by decide, fun heq => ?_⟩
  refine (split_eq_exactSplit_iff _ _).mp heq ['1', ':', '3', 'x'] (by decide) ?_
  exact ⟨['1'], ['3'], ['x'], rfl, by decide, by decide, by decide, by decide⟩

end ItemList

end WorkflowControl
