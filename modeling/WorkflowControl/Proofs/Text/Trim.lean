import WorkflowControl.Text.Basic

/-!
Trimmed texts. A text is its own trimmed form exactly if neither end of it is a blank
(`trim_eq_self_iff`), and blanks put around a text do not change its trimmed form
(`trim_blanks_append`, `trim_append_blanks`).
-/

namespace WorkflowControl.Text

/-- The first run of characters of a class ends where a text of the other class begins. -/
theorem takeWhile_append_stop {p : Char → Bool} {run rest : Text} (hrun : ∀ c ∈ run, p c = true)
    (hrest : ∀ c ∈ rest.head?, p c = false) : (run ++ rest).takeWhile p = run := by
  rw [List.takeWhile_append_of_pos hrun]
  cases rest with
  | nil => simp
  | cons c rest => simp [hrest c rfl]

theorem of_mem_takeWhile {p : Char → Bool} {t : Text} {c : Char} (h : c ∈ t.takeWhile p) :
    p c = true :=
  List.all_eq_true.mp List.all_takeWhile c h

theorem dropWhile_append_stop {p : Char → Bool} {run rest : Text} (hrun : ∀ c ∈ run, p c = true)
    (hrest : ∀ c ∈ rest.head?, p c = false) : (run ++ rest).dropWhile p = rest := by
  rw [List.dropWhile_append_of_pos hrun]
  cases rest with
  | nil => rfl
  | cons c rest => simp [hrest c rfl]

theorem dropWhile_of_head {p : Char → Bool} {t : Text} (h : ∀ c ∈ t.head?, p c = false) :
    t.dropWhile p = t := by
  show ([] ++ t).dropWhile p = t
  exact dropWhile_append_stop (by simp) h

theorem dropWhile_append_of_head {p : Char → Bool} {t : Text} (h : ∀ c ∈ t.head?, p c = false)
    (u : Text) : (u ++ t).dropWhile p = u.dropWhile p ++ t := by
  induction u with
  | nil => exact dropWhile_of_head h
  | cons c u ih =>
    rw [List.cons_append, List.dropWhile_cons, List.dropWhile_cons]
    split
    · exact ih
    · rfl

theorem head_dropWhile (p : Char → Bool) (t : Text) : ∀ c ∈ (t.dropWhile p).head?, p c = false := by
  intro c hc
  have h := List.head?_dropWhile_not p t
  rw [Option.mem_def.mp hc] at h
  exact h

/-! ## The start -/

theorem trimStart_of_head {t : Text} (h : ∀ c ∈ t.head?, isBlank c = false) : trimStart t = t :=
  dropWhile_of_head h

theorem head_trimStart (t : Text) : ∀ c ∈ (trimStart t).head?, isBlank c = false :=
  head_dropWhile isBlank t

theorem trimStart_blanks_append {u : Text} (h : ∀ c ∈ u, isBlank c = true) (t : Text) :
    trimStart (u ++ t) = trimStart t :=
  List.dropWhile_append_of_pos h

theorem trimStart_suffix (t : Text) : trimStart t <:+ t := List.dropWhile_suffix _

/-- The visible characters of ASCII are no blanks. -/
theorem isBlank_eq_false_of_range {c : Char} (h : 32 < c.toNat ∧ c.toNat < 128) :
    isBlank c = false := by
  rw [← Bool.not_eq_true]
  intro hblank
  simp only [isBlank, Bool.or_eq_true, Bool.and_eq_true, beq_iff_eq, decide_eq_true_eq] at hblank
  omega

theorem not_mem_of_blank {u : Text} (h : ∀ c ∈ u, isBlank c = true) {c : Char}
    (hc : isBlank c = false) : c ∉ u := by
  intro hmem
  rw [h c hmem] at hc
  cases hc

/-! ## The end -/

theorem trimEnd_of_last {t : Text} (h : ∀ c ∈ t.getLast?, isBlank c = false) : trimEnd t = t := by
  rw [trimEnd, dropWhile_of_head, List.reverse_reverse]
  rwa [List.head?_reverse]

theorem last_trimEnd (t : Text) : ∀ c ∈ (trimEnd t).getLast?, isBlank c = false := by
  rw [trimEnd, List.getLast?_reverse]
  exact head_dropWhile isBlank t.reverse

theorem trimEnd_append_blanks {u : Text} (h : ∀ c ∈ u, isBlank c = true) (t : Text) :
    trimEnd (t ++ u) = trimEnd t := by
  rw [trimEnd, List.reverse_append, List.dropWhile_append_of_pos (by simpa using h), trimEnd]

/-- A text is its form without the blanks at its end, and these blanks. -/
theorem eq_trimEnd_blanks (t : Text) :
    ∃ b : Text, t = trimEnd t ++ b ∧ ∀ c ∈ b, isBlank c = true := by
  refine ⟨(t.reverse.takeWhile isBlank).reverse, ?_, ?_⟩
  · rw [trimEnd, ← List.reverse_append, List.takeWhile_append_dropWhile, List.reverse_reverse]
  · exact fun c hc => of_mem_takeWhile (List.mem_reverse.mp hc)

theorem trimEnd_append_of_blank {u : Text} (h : trimEnd u = []) (t : Text) :
    trimEnd (t ++ u) = trimEnd t := by
  obtain ⟨b, hu, hb⟩ := eq_trimEnd_blanks u
  rw [h, List.nil_append] at hu
  rw [hu]
  exact trimEnd_append_blanks hb t

theorem trimEnd_append_of_ne_nil {u : Text} (h : trimEnd u ≠ []) (t : Text) :
    trimEnd (t ++ u) = t ++ trimEnd u := by
  obtain ⟨b, hu, hb⟩ := eq_trimEnd_blanks u
  have hlast : ∀ c ∈ (t ++ trimEnd u).getLast?, isBlank c = false := by
    intro c hc
    rw [List.getLast?_append] at hc
    cases ht : (trimEnd u).getLast? with
    | none => exact absurd (List.getLast?_eq_none_iff.mp ht) h
    | some d =>
      rw [ht] at hc
      obtain rfl := Option.some.inj hc
      exact last_trimEnd u _ ht
  conv => lhs; rw [hu]
  rw [← List.append_assoc, trimEnd_append_blanks hb, trimEnd_of_last hlast]

theorem trimEnd_prefix_self (t : Text) : trimEnd t <+: t := by
  rw [trimEnd, ← List.reverse_suffix, List.reverse_reverse]
  exact List.dropWhile_suffix _

/-- Trimming stops at a character that is no blank. -/
theorem prefix_trimEnd_append {t : Text} (h : ∀ c ∈ t.getLast?, isBlank c = false) (u : Text) :
    t <+: trimEnd (t ++ u) := by
  have hstop : ∀ c ∈ t.reverse.head?, isBlank c = false := by rwa [List.head?_reverse]
  rw [trimEnd, List.reverse_append, dropWhile_append_of_head hstop, List.reverse_append,
    List.reverse_reverse]
  exact List.prefix_append _ _

/-- A text that is not trimmed away as a whole keeps its first character. -/
theorem head_trimEnd {t : Text} (h : trimEnd t ≠ []) : (trimEnd t).head? = t.head? := by
  obtain ⟨rest, hrest⟩ := trimEnd_prefix_self t
  cases ht : trimEnd t with
  | nil => exact absurd ht h
  | cons c cs => rw [← hrest, ht]; rfl

/-! ## Both ends -/

theorem head_trim (t : Text) : ∀ c ∈ (trim t).head?, isBlank c = false := by
  intro c hc
  have hne : trimEnd (trimStart t) ≠ [] := by
    intro hnil
    rw [trim, hnil] at hc
    cases hc
  rw [trim, head_trimEnd hne] at hc
  exact head_trimStart t c hc

theorem last_trim (t : Text) : ∀ c ∈ (trim t).getLast?, isBlank c = false :=
  last_trimEnd _

theorem trim_of_ends {t : Text} (hhead : ∀ c ∈ t.head?, isBlank c = false)
    (hlast : ∀ c ∈ t.getLast?, isBlank c = false) : trim t = t := by
  rw [trim, trimStart_of_head hhead, trimEnd_of_last hlast]

theorem trim_of_blank_free {t : Text} (h : ∀ c ∈ t, isBlank c = false) : trim t = t :=
  trim_of_ends (fun c hc => h c (List.mem_of_mem_head? hc))
    (fun c hc => h c (List.mem_of_getLast? hc))

theorem trim_eq_self_iff {t : Text} :
    trim t = t ↔ (∀ c ∈ t.head?, isBlank c = false) ∧ (∀ c ∈ t.getLast?, isBlank c = false) := by
  constructor
  · intro h
    have hhead := head_trim t
    have hlast := last_trim t
    rw [h] at hhead hlast
    exact ⟨hhead, hlast⟩
  · intro ⟨hhead, hlast⟩
    exact trim_of_ends hhead hlast

theorem trim_trim (t : Text) : trim (trim t) = trim t := trim_of_ends (head_trim t) (last_trim t)

theorem trim_blanks_append {u : Text} (h : ∀ c ∈ u, isBlank c = true) (t : Text) :
    trim (u ++ t) = trim t := by
  rw [trim, trimStart_blanks_append h, trim]

theorem trim_append_blanks {u : Text} (h : ∀ c ∈ u, isBlank c = true) (t : Text) :
    trim (t ++ u) = trim t := by
  rw [trim, trim, trimStart, List.dropWhile_append]
  split
  · rename_i hempty
    have hu : u.dropWhile isBlank = [] := by
      have hall := trimStart_blanks_append h []
      rwa [List.append_nil] at hall
    rw [hu, trimStart, List.isEmpty_iff.mp hempty]
  · exact trimEnd_append_blanks h _

/-- A text with a character at its start that is no blank is only trimmed at its end. -/
theorem trim_eq_trimEnd {t : Text} (h : ∀ c ∈ t.head?, isBlank c = false) : trim t = trimEnd t := by
  rw [trim, trimStart_of_head h]

/-- A text is its trimmed form with blanks around it. -/
theorem eq_blanks_trim_blanks (t : Text) :
    ∃ a b : Text, t = a ++ trim t ++ b ∧ (∀ c ∈ a, isBlank c = true) ∧ ∀ c ∈ b, isBlank c = true := by
  obtain ⟨b, hstart, hb⟩ := eq_trimEnd_blanks (trimStart t)
  refine ⟨t.takeWhile isBlank, b, ?_, fun c hc => of_mem_takeWhile hc, hb⟩
  rw [List.append_assoc, trim, ← hstart, trimStart, List.takeWhile_append_dropWhile]

theorem trim_eq_nil_iff {t : Text} : trim t = [] ↔ ∀ c ∈ t, isBlank c = true := by
  constructor
  · intro h
    obtain ⟨a, b, ht, ha, hb⟩ := eq_blanks_trim_blanks t
    rw [h, List.append_nil] at ht
    intro c hc
    rw [ht] at hc
    rcases List.mem_append.mp hc with hc | hc
    · exact ha c hc
    · exact hb c hc
  · intro h
    have hstart := trimStart_blanks_append h []
    rw [List.append_nil] at hstart
    rw [trim, hstart]
    rfl

/-- The trimmed form of the end of a text is the end of its trimmed form. -/
theorem trim_suffix_trim_append (t u : Text) : trim u <:+ trim (t ++ u) := by
  obtain ⟨a, b, hu, -, hb⟩ := eq_blanks_trim_blanks u
  by_cases hnil : trim u = []
  · rw [hnil]
    exact List.nil_suffix
  have hhead : ∀ c ∈ (trim u ++ b).head?, isBlank c = false := by
    intro c hc
    refine head_trim u c ?_
    cases ht : trim u with
    | nil => exact absurd ht hnil
    | cons d ds => rwa [ht] at hc
  have hend : trimEnd (trim u ++ b) = trim u := by
    rw [trimEnd_append_blanks hb, trimEnd_of_last (last_trim u)]
  have htrim : trim (t ++ u) = trimStart (t ++ a) ++ trim u := by
    have hsplit : t ++ u = t ++ a ++ (trim u ++ b) := by
      rw [List.append_assoc, ← List.append_assoc a, ← hu]
    rw [trim, hsplit, trimStart, dropWhile_append_of_head hhead, ← trimStart,
      trimEnd_append_of_ne_nil (by rwa [hend]), hend]
  exact ⟨trimStart (t ++ a), htrim.symm⟩

theorem getLast?_trim (t : Text) : (trim t).getLast? = (trimEnd t).getLast? := by
  obtain ⟨b, ht, hb⟩ := eq_trimEnd_blanks t
  have htrim : trim t = trim (trimEnd t) := by
    conv => lhs; rw [ht]
    exact trim_append_blanks hb _
  rw [htrim]
  rcases List.eq_nil_or_concat (trimEnd t) with hnil | ⟨init, c, hc⟩
  · rw [hnil]
    rfl
  · have hlast := last_trimEnd t
    rw [hc, List.concat_eq_append] at hlast ⊢
    have hsign : trim [c] = [c] := trim_of_blank_free (by simpa using hlast)
    obtain ⟨lead, hlead⟩ := hsign ▸ trim_suffix_trim_append init [c]
    rw [← hlead, List.getLast?_concat, List.getLast?_concat]

theorem trim_infix_self (t : Text) : trim t <:+: t :=
  (trimEnd_prefix_self _).isInfix.trans (trimStart_suffix t).isInfix

end WorkflowControl.Text
