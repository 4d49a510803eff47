import WorkflowControl.Proofs.LineForms

/-!
Where a line with a key and a value is cut. A line may have several `=`, and it can be cut at each one
that has a word in front of it, with or without blanks between the two, and anything behind it
(`CutsAt`). Of these the key is the longest word (`equalsPair?_eq_some_iff`).

So a key and a value that are written with an `=` between them are not always read back. With a blank
behind the key they are. Without one, an `=` in the value counts as well, if it is in the first word
or opens the second one (`CutsAgain`), and then the key goes on up to that one
(`IsPairLine.classify_eq_pair_iff`).
-/

namespace WorkflowControl

namespace Line

open Text

variable {line key blanks behind : Text}

/-- Whether a line falls into a key, blanks, an `=` and what is behind it. -/
structure CutsAt (line key blanks behind : Text) : Prop where
  parts : line.trimStart = key ++ (blanks ++ '=' :: behind)
  word : IsWord key
  blank : ∀ c ∈ blanks, isBlank c = true
  filled : behind ≠ []

/-- A run of blanks ends at the sign behind it. -/
theorem blanks_equals_inj {a b x y : Text} (ha : ∀ c ∈ a, isBlank c = true)
    (hb : ∀ c ∈ b, isBlank c = true) (h : a ++ '=' :: x = b ++ '=' :: y) : a = b ∧ x = y := by
  have stop : ∀ z : Text, ∀ c ∈ ('=' :: z).head?, isBlank c = false := by
    intro z c hc
    obtain rfl := Option.some.inj hc
    decide
  have hab : a = b := by
    rw [← takeWhile_append_stop ha (stop x), h, takeWhile_append_stop hb (stop y)]
  subst hab
  exact ⟨rfl, (List.cons.inj (List.append_cancel_left h)).2⟩

/-- With the same key a line is cut in one way only. -/
theorem CutsAt.unique {blanks' behind' : Text} (h : CutsAt line key blanks behind)
    (h' : CutsAt line key blanks' behind') : blanks = blanks' ∧ behind = behind' :=
  blanks_equals_inj h.blank h'.blank (List.append_cancel_left (h.parts.symm.trans h'.parts))

/-! ## The cut that is taken -/

theorem cutsAt_of_equalsPair? {value : Text} (h : equalsPair? line = some (key, value)) :
    ∃ blanks behind, CutsAt line key blanks behind ∧ value = behind.trim := by
  obtain ⟨hkey, blanks, behind, hparts, hblank, hfilled, hvalue⟩ := equalsPair?_form h
  exact ⟨blanks, behind, ⟨hparts, hkey, hblank, hfilled⟩, hvalue⟩

/-- The cut of a word at its last `=` is not before any other one. -/
theorem exists_cutAtEquals? {rest z : Text} (hkey : key ≠ []) (hbehind : z ++ rest ≠ []) :
    ∃ longer value, cutAtEquals? rest (key ++ '=' :: z) = some (longer, value)
      ∧ key <+: longer := by
  induction key with
  | nil => exact absurd rfl hkey
  | cons c key ih =>
    rw [List.cons_append]
    unfold cutAtEquals?
    cases hcut : cutAtEquals? rest (key ++ '=' :: z) with
    | some p =>
      refine ⟨c :: p.1, p.2, rfl, ?_⟩
      by_cases hnil : key = []
      · simp [hnil]
      · obtain ⟨longer, value, hlonger, hlead⟩ := ih hnil
        rw [hcut] at hlonger
        obtain rfl := Option.some.inj hlonger
        exact List.cons_prefix_cons.mpr ⟨rfl, hlead⟩
    | none =>
      by_cases hnil : key = []
      · exact ⟨[c], z ++ rest, by simp [hnil, hbehind], by simp [hnil]⟩
      · obtain ⟨longer, value, hlonger, -⟩ := ih hnil
        rw [hcut] at hlonger
        cases hlonger

/-- A first word with an `=` behind it and something behind that is the key. -/
theorem equalsPair?_of_equals {word rest : Text} {c : Char} {cs : Text}
    (hcut : cutWord line.trimStart = (word, rest)) (hne : word ≠ [])
    (hnext : rest.trimStart = '=' :: c :: cs) :
    equalsPair? line = some (word, Text.trim (c :: cs)) := by
  unfold equalsPair?
  rw [hcut]
  dsimp only
  rw [if_neg (by simpa using hne)]
  split
  · rename_i d ds heq
    obtain ⟨rfl, rfl⟩ := List.cons.inj (List.cons.inj (hnext.symm.trans heq)).2
    rfl
  · rename_i hnot
    exact absurd hnext (hnot c cs)

/-- Otherwise the first word is cut. -/
theorem equalsPair?_of_not_equals {word rest : Text} (hcut : cutWord line.trimStart = (word, rest))
    (hne : word ≠ []) (hnext : ∀ c cs, rest.trimStart ≠ '=' :: c :: cs) :
    equalsPair? line = (cutAtEquals? rest word).map fun p => (p.1, p.2.trim) := by
  unfold equalsPair?
  rw [hcut]
  dsimp only
  rw [if_neg (by simpa using hne)]
  split
  · rename_i c cs heq
    exact absurd heq (hnext c cs)
  · rfl

/-- A line that can be cut is cut, and its key is as long as this one at least. -/
theorem CutsAt.exists_equalsPair? (h : CutsAt line key blanks behind) :
    ∃ longer value, equalsPair? line = some (longer, value) ∧ key <+: longer := by
  obtain ⟨hparts, hword, hblank, hfilled⟩ := h
  cases hcut : cutWord line.trimStart with
  | mk first rest =>
    obtain ⟨hline, hfirst, hrest⟩ := cutWord_eq hcut
    have hsplit : first ++ rest = key ++ (blanks ++ '=' :: behind) := hline.symm.trans hparts
    have hwithin : ∃ more, first = key ++ more ∧ blanks ++ '=' :: behind = more ++ rest := by
      rcases List.append_eq_append_iff.mp hsplit with ⟨as, hkey, hrestEq⟩ | ⟨more, hmore, hbehind⟩
      · -- The key has no blank, so it ends with the first word at the latest.
        cases as with
        | nil => exact ⟨[], by simpa using hkey.symm, by simpa using hrestEq.symm⟩
        | cons a as =>
          have hblankHead := hrest a (by simp [hrestEq])
          rw [hword.2 a (by simp [hkey])] at hblankHead
          cases hblankHead
      · exact ⟨more, hmore, hbehind⟩
    obtain ⟨more, rfl, hbehind⟩ := hwithin
    have hne : key ++ more ≠ [] := by simp [hword.1]
    cases more with
    | nil =>
      obtain ⟨c, cs, rfl⟩ := List.exists_cons_of_ne_nil hfilled
      have htrim : rest.trimStart = '=' :: c :: cs := by
        rw [← List.nil_append rest, ← hbehind, trimStart_blanks_append hblank]
        exact trimStart_of_head (by rintro c ⟨⟩; rfl)
      exact ⟨key ++ [], _, equalsPair?_of_equals hcut hne htrim, by simp⟩
    | cons a more =>
      -- The `=` is a part of the word, so there are no blanks in front of it.
      have ha : isBlank a = false := hfirst a (by simp)
      have hnoBlanks : blanks = [] := by
        cases blanks with
        | nil => rfl
        | cons b blanks =>
          obtain rfl := (List.cons.inj hbehind).1
          rw [hblank b (by simp)] at ha
          cases ha
      subst hnoBlanks
      obtain ⟨rfl, rfl⟩ := List.cons.inj hbehind
      obtain ⟨longer, value, hlonger, hlead⟩ := exists_cutAtEquals? hword.1 hfilled
      by_cases hnext : ∃ c cs, rest.trimStart = '=' :: c :: cs
      · obtain ⟨c, cs, hnext⟩ := hnext
        exact ⟨key ++ '=' :: more, _, equalsPair?_of_equals hcut hne hnext, by simp⟩
      · have hwithin := equalsPair?_of_not_equals hcut hne fun c cs heq => hnext ⟨c, cs, heq⟩
        exact ⟨longer, value.trim, by simp [hwithin, hlonger], hlead⟩

/-- The key of a line with an `=` is the longest one that the line can be cut with. -/
theorem equalsPair?_eq_some_iff {value : Text} :
    equalsPair? line = some (key, value) ↔ ∃ blanks behind, CutsAt line key blanks behind
      ∧ value = behind.trim
      ∧ ∀ key' blanks' behind', CutsAt line key' blanks' behind' → key' <+: key := by
  constructor
  · intro h
    obtain ⟨blanks, behind, hcut, hvalue⟩ := cutsAt_of_equalsPair? h
    refine ⟨blanks, behind, hcut, hvalue, fun key' blanks' behind' hother => ?_⟩
    obtain ⟨longer, value', hfound, hlead⟩ := hother.exists_equalsPair?
    rw [h] at hfound
    obtain ⟨rfl, -⟩ := Prod.mk.inj (Option.some.inj hfound)
    exact hlead
  · rintro ⟨blanks, behind, hcut, rfl, hlongest⟩
    obtain ⟨longer, value', hfound, hlead⟩ := hcut.exists_equalsPair?
    obtain ⟨blanks', behind', hother, rfl⟩ := cutsAt_of_equalsPair? hfound
    obtain rfl : key = longer :=
      List.IsPrefix.eq_of_length_le hlead (hlongest _ _ _ hother).length_le
    obtain ⟨-, rfl⟩ := hcut.unique hother
    exact hfound

/-! ## A key and a value with `=` between them -/

/-- A key, an `=` and a value, with blanks before and after the `=`. -/
def pairLine (key before after value : Text) : Text := key ++ (before ++ '=' :: (after ++ value))

/-- Whether what follows the `=` behind a key has a further `=` at which the line can be cut. -/
def CutsAgain (behind : Text) : Prop :=
  ∃ word blanks rest, behind = word ++ (blanks ++ '=' :: rest) ∧ (∀ c ∈ word, isBlank c = false)
    ∧ (∀ c ∈ blanks, isBlank c = true) ∧ rest ≠ []

/-- A key and a value that fit one line: the key is a word that begins no tag, the value is trimmed
and has no directive, and there is neither a comment nor a line end nor a backslash at the end. -/
structure IsPairLine (key before after value : Text) : Prop where
  word : IsWord key
  key_signs : '#' ∉ key ∧ '<' ∉ key
  blanks : ∀ c ∈ before ++ after, c = ' ' ∨ c = '\t'
  filled : value ≠ []
  trimmed : value.trim = value
  value_signs : '#' ∉ value ∧ '\n' ∉ value
  last : value.getLast? ≠ some '\\'
  no_directive : firstSome? includeHere? value = none ∧ firstSome? callHere? value = none

namespace IsPairLine

variable {before after value : Text} (h : IsPairLine key before after value)

include h

theorem isBlank_blanks : ∀ c ∈ before ++ after, isBlank c = true := by
  intro c hc
  rcases h.blanks c hc with rfl | rfl <;> rfl

theorem isBlank_before : ∀ c ∈ before, isBlank c = true := fun c hc =>
  h.isBlank_blanks c (List.mem_append_left after hc)

theorem isBlank_after : ∀ c ∈ after, isBlank c = true := fun c hc =>
  h.isBlank_blanks c (List.mem_append_right before hc)

theorem head_pairLine : (pairLine key before after value).head? = key.head? := by
  obtain ⟨c, cs, hkey⟩ := List.exists_cons_of_ne_nil h.word.1
  simp [pairLine, hkey]

theorem isBlank_head : ∀ c ∈ (pairLine key before after value).head?, isBlank c = false := by
  intro c hc
  rw [h.head_pairLine] at hc
  exact h.word.2 c (List.mem_of_mem_head? hc)

theorem getLast_pairLine : (pairLine key before after value).getLast? = value.getLast? := by
  obtain ⟨c, cs, hvalue⟩ := List.exists_cons_of_ne_nil h.filled
  simp [pairLine, hvalue, List.getLast?_append, List.getLast?_cons]

theorem cutsAt : CutsAt (pairLine key before after value) key before (after ++ value) where
  parts := trimStart_of_head h.isBlank_head
  word := h.word
  blank := h.isBlank_before
  filled := by simp [h.filled]

/-- The key is the longest one that the line can be cut with if a blank follows it, or if what is
behind the `=` has no other one to cut at. -/
theorem longest_iff :
    (∀ key' blanks' behind', CutsAt (pairLine key before after value) key' blanks' behind' →
        key' <+: key) ↔ before ≠ [] ∨ ¬ CutsAgain (after ++ value) := by
  constructor
  · intro hlongest
    cases before with
    | cons b before => exact .inl (by simp)
    | nil =>
      refine .inr fun ⟨word, blanks, rest, hbehind, hword, hblank, hrest⟩ => ?_
      have hcut : CutsAt (pairLine key [] after value) (key ++ '=' :: word) blanks rest := by
        refine ⟨?_, ⟨by simp, fun c hc => ?_⟩, hblank, hrest⟩
        · rw [h.cutsAt.parts, hbehind]
          simp
        · rcases List.mem_append.mp hc with hc | hc
          · exact h.word.2 c hc
          · rcases List.mem_cons.mp hc with rfl | hc
            · rfl
            · exact hword c hc
      have hlength := (hlongest _ _ _ hcut).length_le
      rw [List.length_append, List.length_cons] at hlength
      omega
  · intro hfirst key' blanks' behind' hcut
    have hsplit : key' ++ (blanks' ++ '=' :: behind') = key ++ (before ++ '=' :: (after ++ value)) :=
      hcut.parts.symm.trans h.cutsAt.parts
    rcases List.append_eq_append_iff.mp hsplit with ⟨as, hkey, -⟩ | ⟨more, hkey, hbehind⟩
    · exact ⟨as, hkey.symm⟩
    cases more with
    | nil => simp [hkey]
    | cons a more =>
      -- A longer key has the `=`, with no blank in front of it, and a part of what is behind it.
      have ha : isBlank a = false := hcut.word.2 a (by simp [hkey])
      cases before with
      | cons b before =>
        obtain rfl := (List.cons.inj hbehind).1
        rw [h.isBlank_before b (by simp)] at ha
        cases ha
      | nil =>
        obtain ⟨rfl, hagain⟩ := List.cons.inj hbehind
        have hmore : ∀ c ∈ more, isBlank c = false := fun c hc => hcut.word.2 c (by simp [hkey, hc])
        have hcutsAgain : CutsAgain (after ++ value) :=
          ⟨more, blanks', behind', hagain, hmore, hcut.blank, hcut.filled⟩
        rcases hfirst with hne | hnot
        · exact absurd rfl hne
        · exact absurd hcutsAgain hnot

/-- The line has no directive, since neither the key nor what stands behind it begins one. -/
theorem no_directive_pairLine :
    firstSome? includeHere? (pairLine key before after value) = none
      ∧ firstSome? callHere? (pairLine key before after value) = none := by
  have hsign : '<' ∉ key ++ (before ++ '=' :: after) := by
    intro hmem
    simp only [List.mem_append, List.mem_cons] at hmem
    rcases hmem with hmem | hmem | hmem | hmem
    · exact h.key_signs.2 hmem
    · exact absurd (h.isBlank_before _ hmem) (by decide)
    · cases hmem
    · exact absurd (h.isBlank_after _ hmem) (by decide)
  have hsplit : pairLine key before after value = (key ++ (before ++ '=' :: after)) ++ value := by
    simp [pairLine]
  have hhead : ∀ u : Text, u <:+ key ++ (before ++ '=' :: after) → u ≠ [] →
      (u ++ value).head? ≠ some '<' := by
    intro u hu hne heq
    obtain ⟨c, cs, rfl⟩ := List.exists_cons_of_ne_nil hne
    obtain rfl := Option.some.inj heq
    exact hsign (hu.subset List.mem_cons_self)
  rw [hsplit]
  constructor
  · exact firstSome?_append (fun u hu hne => includeHere?_eq_none fun hp =>
      hhead u hu hne (head_of_prefix_cons hp)) h.no_directive.1
  · exact firstSome?_append (fun u hu hne => callHere?_eq_none fun hp =>
      hhead u hu hne (head_of_prefix_cons hp)) h.no_directive.2

/-- The line is no tag, since the key begins none. -/
theorem inside?_pairLine (opening : Text) :
    inside? ('<' :: opening) (pairLine key before after value) = none := by
  rw [Option.eq_none_iff_forall_ne_some]
  intro content hin
  obtain ⟨rest, hstart, -⟩ := inside?_eq_some_iff.mp hin
  rw [trimStart_of_head h.isBlank_head] at hstart
  have hhead := congrArg List.head? hstart
  rw [h.head_pairLine, List.cons_append, List.head?_cons] at hhead
  exact h.key_signs.2 (List.mem_of_mem_head? hhead)

/-- What the line says is the pair that it is cut into. -/
theorem exists_classify_eq_pair :
    ∃ longer value', equalsPair? (pairLine key before after value) = some (longer, value')
      ∧ classify (pairLine key before after value) = pair longer value' := by
  obtain ⟨longer, value', hfound, -⟩ := h.cutsAt.exists_equalsPair?
  refine ⟨longer, value', hfound, ?_⟩
  have hclosing : closing? (pairLine key before after value) = none := by
    rw [closing?, h.inside?_pairLine]
    rfl
  have hopening : opening? (pairLine key before after value) = none := by
    rw [opening?, h.inside?_pairLine]
  rw [classify, h.no_directive_pairLine.1, h.no_directive_pairLine.2, hclosing, hopening, hfound]
  rfl

/-- The line says its key and its value unless the key ends in front of its `=` without a blank and
what is behind it can be cut again. -/
theorem classify_eq_pair_iff :
    classify (pairLine key before after value) = pair key value
      ↔ before ≠ [] ∨ ¬ CutsAgain (after ++ value) := by
  have hvalue : (after ++ value).trim = value := by
    rw [trim_blanks_append h.isBlank_after, h.trimmed]
  obtain ⟨longer, value', hfound, hclass⟩ := h.exists_classify_eq_pair
  rw [hclass, ← h.longest_iff]
  constructor
  · intro heq
    obtain ⟨rfl, rfl⟩ := Line.pair.inj heq
    obtain ⟨-, -, -, -, hlongest⟩ := equalsPair?_eq_some_iff.mp hfound
    exact hlongest
  · intro hlongest
    have hown := equalsPair?_eq_some_iff.mpr ⟨before, after ++ value, h.cutsAt, hvalue.symm, hlongest⟩
    rw [hfound] at hown
    obtain ⟨rfl, rfl⟩ := Prod.mk.inj (Option.some.inj hown)
    rfl

end IsPairLine

end Line

end WorkflowControl
