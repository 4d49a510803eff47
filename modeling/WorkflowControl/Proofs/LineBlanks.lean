import Mathlib.Data.List.Basic
import Mathlib.Data.List.TakeWhile
import WorkflowControl.Proofs.LineCuts

/-!
Blanks at the end of a line. A line that ends in a sign says the same with blanks behind it, unless
the blanks make a pair of it (`classify_append_blanks_iff`): behind an `=` they stand in the place of
a value, and two of them behind a single word stand for a value as well (`Completes`).
-/

namespace WorkflowControl

namespace Text

theorem trimStart_append_of_ne_nil {t : Text} (h : trimStart t ≠ []) (u : Text) :
    trimStart (t ++ u) = trimStart t ++ u := by
  rw [trimStart, trimStart, List.dropWhile_append, if_neg (by simpa [trimStart] using h)]

/-- The blanks in front of a sign are not more with something behind it. -/
theorem takeWhile_isBlank_append {t : Text} (h : trimStart t ≠ []) (u : Text) :
    (t ++ u).takeWhile isBlank = t.takeWhile isBlank := by
  have hstop : ∀ c ∈ (trimStart t ++ u).head?, isBlank c = false := by
    intro c hc
    rw [List.head?_append_of_ne_nil _ h] at hc
    exact head_trimStart t c hc
  have hsplit : t ++ u = t.takeWhile isBlank ++ (trimStart t ++ u) := by
    rw [← List.append_assoc, trimStart, List.takeWhile_append_dropWhile]
  rw [hsplit]
  exact takeWhile_append_stop (fun c hc => of_mem_takeWhile hc) hstop

theorem trimStart_ne_nil_of_last {t : Text} {c : Char} (h : t.getLast? = some c)
    (hc : isBlank c = false) : trimStart t ≠ [] := by
  intro hnil
  have hblank : isBlank c = true := List.dropWhile_eq_nil_iff.mp hnil c (List.mem_of_getLast? h)
  rw [hblank] at hc
  cases hc

end Text

namespace Line

open Text

variable {t blanks : Text}

/-! ## Directives -/

theorem firstSome?_append_eq {α : Type} {f : Text → Option α} {t r : Text}
    (ht : ∀ u, f (u ++ r) = f u) (hr : firstSome? f r = none) :
    firstSome? f (t ++ r) = firstSome? f t := by
  induction t with
  | nil =>
    have hnil : f [] = none := (ht []).symm.trans (firstSome?_eq_none_iff.mp hr r (List.suffix_refl r))
    rw [List.nil_append, hr, firstSome?, hnil]
  | cons c t ih =>
    rw [List.cons_append, firstSome?, firstSome?, ← List.cons_append, ht, ih]

/-- The `>>` of a call is a part of the line that ends in a sign, so blanks behind it are behind the
call. -/
theorem callHere?_append_blanks (hb : ∀ c ∈ blanks, isBlank c = true) :
    callHere? (t ++ blanks) = callHere? t := by
  refine Option.ext fun body => ?_
  rw [callHere?_eq_some_iff, callHere?_eq_some_iff]
  refine and_congr_right fun _ => and_congr_right fun _ => ?_
  constructor
  · rintro ⟨rest, h⟩
    have hsplit : t ++ blanks = (callOpening ++ (body ++ ['>']) ++ ['>']) ++ rest := by
      rw [h]
      simp
    obtain ⟨rest', rfl, -⟩ := exists_of_append_blanks_eq hb (by decide) hsplit
    exact ⟨rest', by simp⟩
  · rintro ⟨rest, rfl⟩
    exact ⟨rest ++ blanks, by simp⟩

/-- Blanks behind a line neither make nor end a directive. -/
theorem directives_append_blanks (hb : ∀ c ∈ blanks, isBlank c = true) :
    firstSome? includeHere? (t ++ blanks) = firstSome? includeHere? t
      ∧ firstSome? callHere? (t ++ blanks) = firstSome? callHere? t := by
  have hopening : '<' ∉ blanks := not_mem_of_blank hb (by decide)
  have hinclude : ¬ includeOpening <:+: blanks := fun h => hopening (h.subset List.mem_cons_self)
  have hcall : ¬ callOpening <:+: blanks := fun h => hopening (h.subset List.mem_cons_self)
  exact ⟨firstSome?_append_eq (fun _ => includeHere?_append_blanks hb)
      (firstSome?_includeHere?_eq_none hinclude),
    firstSome?_append_eq (fun _ => callHere?_append_blanks hb) (firstSome?_callHere?_eq_none hcall)⟩

/-! ## Tags -/

theorem inside?_append_blanks (hb : ∀ c ∈ blanks, isBlank c = true) (ht : t.trimStart ≠ [])
    (opening : Text) : inside? opening (t ++ blanks) = inside? opening t := by
  refine Option.ext fun content => ?_
  rw [inside?_eq_some_iff, inside?_eq_some_iff, trimStart_append_of_ne_nil ht]
  constructor
  · rintro ⟨rest, hline, hend⟩
    rcases List.append_eq_append_iff.mp hline with ⟨more, hopening, hblanks⟩ | ⟨rest', hstart, rfl⟩
    · -- What follows the opening would be blank.
      have hrest : ∀ c ∈ rest, isBlank c = true := fun c hc => hb c (by simp [hblanks, hc])
      have hnil : rest.trimEnd = [] := by
        rw [← List.nil_append rest, trimEnd_append_blanks hrest]
        rfl
      rw [hnil] at hend
      simp at hend
    · exact ⟨rest', hstart, by rwa [trimEnd_append_blanks hb] at hend⟩
  · rintro ⟨rest, hline, hend⟩
    exact ⟨rest ++ blanks, by rw [hline, List.append_assoc], by rwa [trimEnd_append_blanks hb]⟩

theorem tags_append_blanks (hb : ∀ c ∈ blanks, isBlank c = true) (ht : t.trimStart ≠ []) :
    closing? (t ++ blanks) = closing? t ∧ opening? (t ++ blanks) = opening? t := by
  rw [closing?, closing?, opening?, opening?, inside?_append_blanks hb ht, inside?_append_blanks hb ht]
  exact ⟨rfl, rfl⟩

/-! ## Pairs -/

/-- Whether a line is a word with an `=` behind it, blanks around both aside, and nothing else. -/
def EndsAtEquals (t : Text) : Prop :=
  ∃ key between : Text, t.trimStart = key ++ (between ++ ['=']) ∧ IsWord key
    ∧ ∀ c ∈ between, isBlank c = true

/-- The cuts of a line with blanks behind it are those of the line, and the one whose value the
blanks are. -/
theorem cutsAt_append_blanks_iff {key between behind : Text} (hb : ∀ c ∈ blanks, isBlank c = true)
    (ht : t.trimStart ≠ []) :
    CutsAt (t ++ blanks) key between behind
      ↔ (∃ rest, CutsAt t key between rest ∧ behind = rest ++ blanks)
        ∨ blanks ≠ [] ∧ behind = blanks ∧ t.trimStart = key ++ (between ++ ['='])
          ∧ IsWord key ∧ ∀ c ∈ between, isBlank c = true := by
  constructor
  · rintro ⟨hparts, hword, hblank, hfilled⟩
    rw [trimStart_append_of_ne_nil ht] at hparts
    have hsplit : t.trimStart ++ blanks = (key ++ between ++ ['=']) ++ behind := by
      rw [hparts]
      simp
    obtain ⟨rest, hstart, rfl⟩ := exists_of_append_blanks_eq hb (by decide) hsplit
    cases rest with
    | nil => exact .inr ⟨hfilled, rfl, by simpa using hstart, hword, hblank⟩
    | cons r rest => exact .inl ⟨r :: rest, ⟨by simpa using hstart, hword, hblank, by simp⟩, rfl⟩
  · rintro (⟨rest, ⟨hparts, hword, hblank, hfilled⟩, rfl⟩ | ⟨hne, rfl, hstart, hword, hblank⟩)
    · refine ⟨?_, hword, hblank, by simp [hfilled]⟩
      rw [trimStart_append_of_ne_nil ht, hparts]
      simp
    · refine ⟨?_, hword, hblank, hne⟩
      rw [trimStart_append_of_ne_nil ht, hstart]
      simp

theorem equalsPair?_append_blanks (hb : ∀ c ∈ blanks, isBlank c = true) (ht : t.trimStart ≠ [])
    (hend : blanks = [] ∨ ¬ EndsAtEquals t) : equalsPair? (t ++ blanks) = equalsPair? t := by
  have hcuts : ∀ key between behind, CutsAt (t ++ blanks) key between behind
      ↔ ∃ rest, CutsAt t key between rest ∧ behind = rest ++ blanks := by
    intro key between behind
    rw [cutsAt_append_blanks_iff hb ht]
    refine or_iff_left ?_
    rintro ⟨hne, -, hstart, hword, hblank⟩
    rcases hend with hnil | hnot
    · exact hne hnil
    · exact hnot ⟨key, between, hstart, hword, hblank⟩
  refine Option.ext fun p => ?_
  obtain ⟨key, value⟩ := p
  rw [equalsPair?_eq_some_iff, equalsPair?_eq_some_iff]
  constructor
  · rintro ⟨between, behind, hcut, rfl, hlongest⟩
    obtain ⟨rest, hown, rfl⟩ := (hcuts _ _ _).mp hcut
    refine ⟨between, rest, hown, trim_append_blanks hb rest, fun key' between' behind' hother => ?_⟩
    exact hlongest key' between' _ ((hcuts _ _ _).mpr ⟨behind', hother, rfl⟩)
  · rintro ⟨between, rest, hcut, rfl, hlongest⟩
    refine ⟨between, rest ++ blanks, (hcuts _ _ _).mpr ⟨rest, hcut, rfl⟩,
      (trim_append_blanks hb rest).symm, fun key' between' behind' hother => ?_⟩
    obtain ⟨rest', hown, -⟩ := (hcuts _ _ _).mp hother
    exact hlongest key' between' rest' hown

/-- Blanks behind a word alone are those behind a key. -/
theorem blankPair?_word_append_blanks {t : Text} (ht : IsWord t.trimStart)
    (hb : ∀ c ∈ blanks, isBlank c = true) :
    blankPair? (t ++ blanks) = if blanks.length < 2 then none else some (t.trimStart, []) := by
  have hhead : ∀ c ∈ blanks.head?, isBlank c = true := fun c hc => hb c (List.mem_of_mem_head? hc)
  have hcut : cutWord (t ++ blanks).trimStart = (t.trimStart, blanks) := by
    rw [trimStart_append_of_ne_nil ht.1, cutWord_append ht.2 hhead]
  have htrim : blanks.trimStart = [] := List.dropWhile_eq_nil_iff.mpr hb
  have htake : blanks.takeWhile isBlank = blanks := List.takeWhile_eq_self_iff.mpr hb
  simp only [blankPair?, hcut, htake, htrim]
  by_cases hlength : blanks.length < 2
  · simp [hlength]
  · have hne : blanks ≠ [] := by
      rintro rfl
      exact hlength (by decide)
    simp [hlength, hne, ht.1]
    rfl

theorem blankPair?_word (ht : IsWord t.trimStart) : blankPair? t = none := by
  have hnone := blankPair?_word_append_blanks ht (fun c (hc : c ∈ ([] : Text)) => nomatch hc)
  rwa [List.append_nil, if_pos (by decide)] at hnone

theorem blankPair?_append_blanks (hb : ∀ c ∈ blanks, isBlank c = true) {c : Char}
    (hlast : t.getLast? = some c) (hc : isBlank c = false)
    (hend : blanks.length < 2 ∨ ¬ IsWord t.trimStart) : blankPair? (t ++ blanks) = blankPair? t := by
  have ht := trimStart_ne_nil_of_last hlast hc
  by_cases hword : IsWord t.trimStart
  · have hshort : blanks.length < 2 := hend.resolve_right fun hnot => hnot hword
    rw [blankPair?_word_append_blanks hword hb, if_pos hshort, blankPair?_word hword]
  · cases hcut : cutWord t.trimStart with
    | mk word rest =>
      obtain ⟨hline, hfree, hrest⟩ := cutWord_eq hcut
      have hne : rest ≠ [] := by
        rintro rfl
        rw [List.append_nil] at hline
        exact hword ⟨ht, by rwa [hline]⟩
      have hfilled : rest.trimStart ≠ [] := by
        refine trimStart_ne_nil_of_last (c := c) ?_ hc
        obtain ⟨before, hbefore⟩ := trimStart_suffix t
        rwa [← hbefore, hline, ← List.append_assoc, List.getLast?_append_of_ne_nil _ hne] at hlast
      have hcut' : cutWord (t ++ blanks).trimStart = (word, rest ++ blanks) := by
        have hhead : ∀ d ∈ (rest ++ blanks).head?, isBlank d = true := by
          intro d hd
          rw [List.head?_append_of_ne_nil _ hne] at hd
          exact hrest d hd
        rw [trimStart_append_of_ne_nil ht, hline, List.append_assoc, cutWord_append hfree hhead]
      have hempty : ∀ u : Text, (rest.trimStart ++ u).isEmpty = false := by
        intro u
        simp [hfilled]
      have hown : rest.trimStart.isEmpty = false := by simpa using hfilled
      simp only [blankPair?, hcut, hcut', takeWhile_isBlank_append hfilled,
        trimStart_append_of_ne_nil hfilled, List.head?_append_of_ne_nil _ hfilled, hempty, hown,
        trim_append_blanks hb]

/-! ## What the line says -/

theorem classify_eq_unmatched_iff : classify t = unmatched
    ↔ firstSome? includeHere? t = none ∧ firstSome? callHere? t = none ∧ closing? t = none
      ∧ opening? t = none ∧ equalsPair? t = none ∧ blankPair? t = none := by
  unfold classify
  cases firstSome? includeHere? t with
  | some target => simp
  | none =>
    cases firstSome? callHere? t with
    | some body => simp
    | none =>
      cases closing? t with
      | some key => simp
      | none =>
        cases opening? t with
        | some tag => simp
        | none =>
          cases equalsPair? t with
          | some p => simp
          | none => cases blankPair? t <;> simp

/-- Whether blanks behind a line make a pair of it: the line ends at an `=`, which a value is missing
behind, or it says nothing and is a word that could be a key. -/
def Completes (t blanks : Text) : Prop :=
  (firstSome? includeHere? t = none ∧ firstSome? callHere? t = none ∧ EndsAtEquals t ∧ blanks ≠ [])
    ∨ (classify t = unmatched ∧ IsWord t.trimStart ∧ 2 ≤ blanks.length)

/-- The word in front of an `=` at the end of a line is the longest key of the line. -/
theorem key_prefix_of_equals {key between key' between' rest : Text}
    (hline : key ++ (between ++ ['=']) = key' ++ (between' ++ '=' :: rest)) (hkey' : IsWord key')
    (hblank : ∀ c ∈ between, isBlank c = true) : key' <+: key := by
  rcases List.append_eq_append_iff.mp hline with ⟨more, rfl, hbehind⟩ | ⟨more, hkey, -⟩
  · cases more with
    | nil => simp
    | cons m more =>
      -- A longer key would begin in the blanks, or have the `=` in it and none behind it.
      exfalso
      cases between with
      | nil =>
        have hlength := congrArg List.length hbehind
        simp at hlength
      | cons b between =>
        obtain ⟨rfl, -⟩ := List.cons.inj hbehind
        have hm : isBlank b = false := hkey'.2 b (by simp)
        rw [hblank b (by simp)] at hm
        cases hm
  · exact ⟨more, hkey.symm⟩

theorem inside?_of_endsAtEquals (h : EndsAtEquals t) (opening : Text) : inside? opening t = none := by
  obtain ⟨key, between, hline, -, -⟩ := h
  refine Option.eq_none_iff_forall_ne_some.mpr fun content hin => ?_
  obtain ⟨rest, hstart, hend⟩ := inside?_eq_some_iff.mp hin
  have hsplit : opening ++ rest = (key ++ between) ++ ['='] := by
    rw [← hstart, hline, List.append_assoc]
  rcases List.eq_nil_or_concat rest with rfl | ⟨init, c, rfl⟩
  · simp [trimEnd] at hend
  · rw [List.concat_eq_append, ← List.append_assoc] at hsplit
    obtain rfl : c = '=' := by simpa using (List.append_inj_right' hsplit rfl)
    rw [List.concat_eq_append, trimEnd_of_last (by simp; decide)] at hend
    have hlast := List.append_inj_right' hend rfl
    simp at hlast

/-- The blanks behind an `=` at the end are an empty value. -/
theorem classify_append_blanks_of_endsAtEquals (hb : ∀ c ∈ blanks, isBlank c = true)
    (hinclude : firstSome? includeHere? t = none) (hcall : firstSome? callHere? t = none)
    (h : EndsAtEquals t) (hne : blanks ≠ []) : ∃ key, classify (t ++ blanks) = pair key [] := by
  have hinside := inside?_of_endsAtEquals h
  obtain ⟨key, between, hline, hkey, hblank⟩ := h
  have ht : t.trimStart ≠ [] := by simp [hline]
  have hcut : CutsAt (t ++ blanks) key between blanks :=
    (cutsAt_append_blanks_iff hb ht).mpr (.inr ⟨hne, rfl, hline, hkey, hblank⟩)
  have hpair : equalsPair? (t ++ blanks) = some (key, []) := by
    refine equalsPair?_eq_some_iff.mpr ⟨between, blanks, hcut, (trim_eq_nil_iff.mpr hb).symm, ?_⟩
    intro key' between' behind' hother
    rcases (cutsAt_append_blanks_iff hb ht).mp hother with ⟨rest, hown, -⟩ | ⟨-, -, hstart, hkey', -⟩
    · exact key_prefix_of_equals (hline.symm.trans hown.parts) hown.word hblank
    · exact key_prefix_of_equals (hline.symm.trans hstart) hkey' hblank
  obtain ⟨hincludes, hcalls⟩ := directives_append_blanks (t := t) hb
  obtain ⟨hclosings, hopenings⟩ := tags_append_blanks hb ht
  refine ⟨key, ?_⟩
  rw [classify, hincludes, hinclude, hcalls, hcall, hclosings, hopenings, closing?, opening?, hinside,
    hinside, hpair]
  rfl

/-- A line that ends in a sign says the same with blanks behind it unless they make a pair of it. -/
theorem classify_append_blanks_iff {c : Char} (hb : ∀ c ∈ blanks, isBlank c = true)
    (hlast : t.getLast? = some c) (hc : isBlank c = false) :
    classify (t ++ blanks) = classify t ↔ ¬ Completes t blanks := by
  have ht := trimStart_ne_nil_of_last hlast hc
  obtain ⟨hinclude, hcall⟩ := directives_append_blanks (t := t) hb
  obtain ⟨hclosing, hopening⟩ := tags_append_blanks hb ht
  constructor
  · rintro heq (⟨hnoInclude, hnoCall, hend, hne⟩ | ⟨hunmatched, hword, hlength⟩)
    · obtain ⟨key, hpair⟩ := classify_append_blanks_of_endsAtEquals hb hnoInclude hnoCall hend hne
      rw [hpair] at heq
      refine value_ne_nil_of_classify heq.symm ?_ rfl
      intro d hd
      rw [hlast] at hd
      rwa [← Option.some.inj hd]
    · rw [hunmatched, classify_eq_unmatched_iff, blankPair?_word_append_blanks hword hb,
        if_neg (by omega)] at heq
      cases heq.2.2.2.2.2
  · intro hnot
    unfold classify
    rw [hinclude, hcall, hclosing, hopening]
    cases hnoInclude : firstSome? includeHere? t with
    | some target => rfl
    | none =>
      cases hnoCall : firstSome? callHere? t with
      | some body => rfl
      | none =>
        cases hnoClosing : closing? t with
        | some key => rfl
        | none =>
          cases hnoOpening : opening? t with
          | some tag => rfl
          | none =>
            have hend : blanks = [] ∨ ¬ EndsAtEquals t := by
              by_cases hne : blanks = []
              · exact .inl hne
              · exact .inr fun hend => hnot (.inl ⟨hnoInclude, hnoCall, hend, hne⟩)
            rw [equalsPair?_append_blanks hb ht hend]
            cases hnoPair : equalsPair? t with
            | some p => rfl
            | none =>
              have hshort : blanks.length < 2 ∨ ¬ IsWord t.trimStart := by
                by_cases hword : IsWord t.trimStart
                · refine .inl (Nat.lt_of_not_le fun hlength => hnot (.inr ⟨?_, hword, hlength⟩))
                  exact classify_eq_unmatched_iff.mpr ⟨hnoInclude, hnoCall, hnoClosing, hnoOpening,
                    hnoPair, blankPair?_word hword⟩
                · exact .inr hword
              rw [blankPair?_append_blanks hb hlast hc hshort]

end Line

end WorkflowControl
