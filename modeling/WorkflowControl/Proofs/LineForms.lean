import WorkflowControl.Proofs.Line
import WorkflowControl.Proofs.LogicalLine
import WorkflowControl.Proofs.Text.Lower

/-!
What a line can say. The key of a pair is a word at the start of the line, and its value is a
trimmed part of the line behind it (`pair_form`). The value has no directive, for the line would
have it too, and the two are never the rest of a tag (`classify_eq_pair`). The keys of tags are
lowered words (`classify_eq_openSection`).
-/

namespace WorkflowControl

namespace Text

/-- A text that ends in a sign does not end within the blanks behind another one. -/
theorem exists_of_append_blanks_eq {t blanks u v : Text} {c : Char}
    (hb : ∀ d ∈ blanks, isBlank d = true) (hc : isBlank c = false)
    (h : t ++ blanks = (u ++ [c]) ++ v) : ∃ rest, t = (u ++ [c]) ++ rest ∧ v = rest ++ blanks := by
  rcases List.append_eq_append_iff.mp h with ⟨more, hu, hblanks⟩ | ⟨rest, ht, hv⟩
  · rcases List.eq_nil_or_concat more with rfl | ⟨init, d, rfl⟩
    · exact ⟨[], by simpa using hu.symm, by simpa using hblanks.symm⟩
    · have hd : c = d := by
        have hlast := congrArg List.getLast? hu
        simpa using hlast
      have hblank := hb c (by simp [hblanks, hd])
      rw [hc] at hblank
      cases hblank
  · exact ⟨rest, ht, hv⟩

end Text

namespace Line

open Text

/-! ## Words -/

theorem cutWord_eq {t word rest : Text} (h : cutWord t = (word, rest)) :
    t = word ++ rest ∧ (∀ c ∈ word, isBlank c = false) ∧ ∀ c ∈ rest.head?, isBlank c = true := by
  obtain ⟨rfl, rfl⟩ := Prod.mk.inj h
  refine ⟨List.takeWhile_append_dropWhile.symm, ?_, ?_⟩
  · intro c hc
    simpa using of_mem_takeWhile hc
  · intro c hc
    simpa using head_dropWhile (fun c => !isBlank c) t c hc

theorem cutAtEquals?_eq_some {rest word key value : Text}
    (h : cutAtEquals? rest word = some (key, value)) :
    ∃ z, word = key ++ '=' :: z ∧ value = z ++ rest ∧ key ≠ [] ∧ value ≠ [] := by
  induction word generalizing key with
  | nil => cases h
  | cons c cs ih =>
    -- The last `=` is tried first, so an earlier one counts only if there is no later one.
    unfold cutAtEquals? at h
    cases hcut : cutAtEquals? rest cs with
    | some p =>
      rw [hcut] at h
      obtain ⟨hkey, hvalue⟩ := Prod.mk.inj (Option.some.inj h)
      have hbehind : cutAtEquals? rest cs = some (p.1, value) := by rw [hcut, ← hvalue]
      obtain ⟨z, hz, hrest, -, hne⟩ := ih hbehind
      exact ⟨z, by rw [← hkey, hz]; rfl, hrest, by simp [← hkey], hne⟩
    | none =>
      rw [hcut] at h
      dsimp only at h
      split at h
      · rename_i z
        split at h
        · cases h
        · rename_i hne
          obtain ⟨rfl, rfl⟩ := Prod.mk.inj (Option.some.inj h)
          exact ⟨z, rfl, rfl, by simp, by simpa using hne⟩
      · cases h

/-! ## Pairs -/

theorem takeWhile_append_trimStart (t : Text) : t.takeWhile isBlank ++ trimStart t = t :=
  List.takeWhile_append_dropWhile

theorem equalsPair?_form {line key value : Text} (h : equalsPair? line = some (key, value)) :
    IsWord key ∧ ∃ blanks z : Text, line.trimStart = key ++ (blanks ++ '=' :: z)
      ∧ (∀ c ∈ blanks, isBlank c = true) ∧ z ≠ [] ∧ value = z.trim := by
  rw [equalsPair?] at h
  cases hcut : cutWord line.trimStart with
  | mk word rest =>
    obtain ⟨hline, hword, -⟩ := cutWord_eq hcut
    rw [hcut] at h
    dsimp only at h
    split at h
    · cases h
    · rename_i hne
      have hwordNe : word ≠ [] := by simpa using hne
      split at h
      · rename_i c cs hrest
        obtain ⟨rfl, rfl⟩ := Prod.mk.inj (Option.some.inj h)
        refine ⟨⟨hwordNe, hword⟩, rest.takeWhile isBlank, c :: cs, ?_,
          fun c hc => of_mem_takeWhile hc, by simp, rfl⟩
        rw [← hrest, takeWhile_append_trimStart, hline]
      · obtain ⟨p, hp, hpair⟩ := Option.map_eq_some_iff.mp h
        obtain ⟨rfl, rfl⟩ := Prod.mk.inj hpair
        have hsplit : cutAtEquals? rest word = some (p.1, p.2) := hp
        obtain ⟨z, hz, hvalue, hkey, hvalueNe⟩ := cutAtEquals?_eq_some hsplit
        refine ⟨⟨hkey, fun c hc => hword c (by simp [hz, hc])⟩, [], p.2, ?_, by simp, hvalueNe, rfl⟩
        rw [hline, hz, hvalue]
        simp

theorem blankPair?_form {line key value : Text} (h : blankPair? line = some (key, value)) :
    IsWord key ∧ ∃ blanks z : Text, line.trimStart = key ++ (blanks ++ z) ∧ blanks ≠ []
      ∧ (∀ c ∈ blanks, isBlank c = true) ∧ (∀ c ∈ z.head?, isBlank c = false) ∧ value = z.trim := by
  rw [blankPair?] at h
  cases hcut : cutWord line.trimStart with
  | mk word rest =>
    obtain ⟨hline, hword, -⟩ := cutWord_eq hcut
    rw [hcut] at h
    dsimp only at h
    split at h
    · cases h
    · rename_i hne
      simp only [Bool.or_eq_true, not_or, List.isEmpty_iff] at hne
      split at h
      · cases h
      · obtain ⟨rfl, rfl⟩ := Prod.mk.inj (Option.some.inj h)
        refine ⟨⟨hne.1, hword⟩, rest.takeWhile isBlank, rest.trimStart, ?_, hne.2,
          fun c hc => of_mem_takeWhile hc, head_trimStart rest, rfl⟩
        rw [takeWhile_append_trimStart, hline]

theorem pair_form {line key value : Text}
    (h : (equalsPair? line).or (blankPair? line) = some (key, value)) :
    IsWord key ∧ key <+: line.trimStart ∧ value.trim = value ∧ value <:+ line.trim := by
  have hlead : ∃ lead, line = lead ++ line.trimStart := by
    obtain ⟨lead, hlead⟩ := trimStart_suffix line
    exact ⟨lead, hlead.symm⟩
  obtain ⟨lead, hlead⟩ := hlead
  cases heq : equalsPair? line with
  | some p =>
    rw [heq] at h
    obtain rfl := Option.some.inj h
    obtain ⟨hkey, blanks, z, hline, -, -, rfl⟩ := equalsPair?_form heq
    refine ⟨hkey, ⟨_, hline.symm⟩, trim_trim z, ?_⟩
    have hsplit : line = lead ++ (key ++ (blanks ++ ['='])) ++ z := by
      rw [hlead, hline]
      simp
    rw [hsplit]
    exact trim_suffix_trim_append _ z
  | none =>
    rw [heq] at h
    obtain ⟨hkey, blanks, z, hline, -, -, -, rfl⟩ := blankPair?_form h
    refine ⟨hkey, ⟨_, hline.symm⟩, trim_trim z, ?_⟩
    have hsplit : line = lead ++ (key ++ blanks) ++ z := by
      rw [hlead, hline]
      simp
    rw [hsplit]
    exact trim_suffix_trim_append _ z

/-! ## Directives in a part of a line -/

theorem includeHere?_eq_some_iff {t target : Text} : includeHere? t = some target
    ↔ target ≠ [] ∧ ∃ word rest, t = includeOpening ++ (word ++ rest)
      ∧ (∀ c ∈ word, isBlank c = false) ∧ (∀ c ∈ rest.head?, isBlank c = true)
      ∧ upToLastClose? word = some target := by
  unfold includeHere?
  constructor
  · intro h
    cases ht : behind? includeOpening t with
    | none =>
      rw [ht] at h
      cases h
    | some rest =>
      obtain ⟨hrest, hword, hbehind⟩ := cutWord_eq (t := rest) rfl
      rw [ht] at h
      dsimp only at h
      split at h
      · rename_i c cs hclose
        obtain rfl := Option.some.inj h
        exact ⟨by simp, _, _, by rw [behind?_eq_some_iff.mp ht, ← hrest], hword, hbehind, hclose⟩
      · cases h
  · rintro ⟨hne, word, rest, rfl, hword, hrest, hclose⟩
    have htake : (word ++ rest).takeWhile (fun c => !isBlank c) = word :=
      takeWhile_append_stop (fun c hc => by simp [hword c hc]) fun c hc => by simp [hrest c hc]
    obtain ⟨c, cs, rfl⟩ := List.exists_cons_of_ne_nil hne
    simp [htake, hclose]

theorem includeHere?_append_blanks {t blanks : Text} (hb : ∀ c ∈ blanks, isBlank c = true) :
    includeHere? (t ++ blanks) = includeHere? t := by
  refine Option.ext fun target => ?_
  rw [includeHere?_eq_some_iff, includeHere?_eq_some_iff]
  refine and_congr_right fun _ => ?_
  constructor
  · rintro ⟨word, rest, h, hword, hrest, hclose⟩
    rcases List.eq_nil_or_concat word with rfl | ⟨init, c, rfl⟩
    · cases hclose
    have hsplit : t ++ blanks = (includeOpening ++ init ++ [c]) ++ rest := by
      rw [h]
      simp
    obtain ⟨rest', rfl, rfl⟩ := exists_of_append_blanks_eq hb (hword c (by simp)) hsplit
    refine ⟨_, rest', by simp, hword, fun d hd => hrest d ?_, hclose⟩
    rw [List.head?_append, hd]
    rfl
  · rintro ⟨word, rest, rfl, hword, hrest, hclose⟩
    refine ⟨word, rest ++ blanks, by simp, hword, fun d hd => ?_, hclose⟩
    cases rest with
    | nil => exact hb d (List.mem_of_mem_head? hd)
    | cons r rest => exact hrest d hd

theorem callHere?_eq_some_iff {t body : Text} : callHere? t = some body
    ↔ body ≠ [] ∧ '>' ∉ body ∧ ∃ rest, t = callOpening ++ (body ++ '>' :: '>' :: rest) := by
  unfold callHere?
  constructor
  · intro h
    cases ht : behind? callOpening t with
    | none =>
      rw [ht] at h
      cases h
    | some rest =>
      rw [ht] at h
      dsimp only at h
      split at h
      · cases h
      split at h
      · rename_i hne hend
        obtain rfl := Option.some.inj h
        refine ⟨by simpa using hne, fun hmem => ?_, (rest.dropWhile (· != '>')).drop 2, ?_⟩
        · have hstop := of_mem_takeWhile hmem
          cases hstop
        · have hsplit := List.take_append_drop 2 (rest.dropWhile (· != '>'))
          rw [hend] at hsplit
          rw [behind?_eq_some_iff.mp ht]
          conv => lhs; rw [← List.takeWhile_append_dropWhile (p := (· != '>')) (l := rest), ← hsplit]
          rfl
      · cases h
  · rintro ⟨hne, hfree, rest, rfl⟩
    have hbody : ∀ c ∈ body, (c != '>') = true := by
      intro c hc
      have hsign : c ≠ '>' := fun heq => hfree (heq ▸ hc)
      simpa using hsign
    have hstop : ∀ c ∈ ('>' :: '>' :: rest : Text).head?, (c != '>') = false := by
      rintro c ⟨⟩
      rfl
    simp [takeWhile_append_stop hbody hstop, dropWhile_append_stop hbody hstop, hne]

theorem callHere?_append {t more : Text} (h : callHere? (t ++ more) = none) :
    callHere? t = none := by
  rw [Option.eq_none_iff_forall_ne_some] at h ⊢
  intro body hbody
  obtain ⟨hne, hfree, rest, rfl⟩ := callHere?_eq_some_iff.mp hbody
  exact h body (callHere?_eq_some_iff.mpr ⟨hne, hfree, rest ++ more, by simp⟩)

theorem firstSome?_trim {α : Type} {f : Text → Option α} {t : Text}
    (hf : ∀ u blanks : Text, (∀ c ∈ blanks, isBlank c = true) → f (u ++ blanks) = none →
      f u = none) (h : firstSome? f t = none) : firstSome? f t.trim = none := by
  obtain ⟨a, b, ht, -, hb⟩ := eq_blanks_trim_blanks t
  refine firstSome?_eq_none_iff.mpr fun u hu => hf u b hb ?_
  refine firstSome?_eq_none_iff.mp h (u ++ b) ?_
  obtain ⟨lead, hlead⟩ := hu
  exact ⟨a ++ lead, by rw [ht, ← hlead]; simp⟩

/-- A suffix of a trimmed line has no directive if the line has none. -/
theorem no_directive_of_suffix_trim {line value : Text} (h : value <:+ line.trim)
    (hinclude : firstSome? includeHere? line = none) (hcall : firstSome? callHere? line = none) :
    firstSome? includeHere? value = none ∧ firstSome? callHere? value = none := by
  have hi := firstSome?_trim (fun _ _ hb h => (includeHere?_append_blanks hb).symm.trans h) hinclude
  have hc := firstSome?_trim (fun _ _ _ => callHere?_append) hcall
  exact ⟨firstSome?_eq_none_iff.mpr fun u hu => firstSome?_eq_none_iff.mp hi u (hu.trans h),
    firstSome?_eq_none_iff.mpr fun u hu => firstSome?_eq_none_iff.mp hc u (hu.trans h)⟩

/-! ## What a line says -/

theorem classify_pair_inv {line key value : Text} (h : classify line = pair key value) :
    firstSome? includeHere? line = none ∧ firstSome? callHere? line = none
      ∧ closing? line = none ∧ opening? line = none
      ∧ (equalsPair? line).or (blankPair? line) = some (key, value) := by
  -- The forms are tried in turn, and a pair is what is left.
  unfold classify at h
  cases hi : firstSome? includeHere? line with
  | some target => rw [hi] at h; cases h
  | none =>
  cases hc : firstSome? callHere? line with
  | some body => rw [hi, hc] at h; cases h
  | none =>
  cases hclose : closing? line with
  | some k => rw [hi, hc, hclose] at h; cases h
  | none =>
  cases hopen : opening? line with
  | some p => rw [hi, hc, hclose, hopen] at h; cases h
  | none =>
  rw [hi, hc, hclose, hopen] at h
  cases hpair : (equalsPair? line).or (blankPair? line) with
  | none => rw [hpair] at h; cases h
  | some p =>
    rw [hpair] at h
    obtain ⟨rfl, rfl⟩ := Line.pair.inj h
    exact ⟨rfl, rfl, rfl, rfl, rfl⟩

theorem classify_openSection_inv {line key : Text} {label : Option Text}
    (h : classify line = openSection key label) :
    ∃ name inner, opening? line = some (name, inner) ∧ key = name.lower
      ∧ label = inner.map Text.lower := by
  unfold classify at h
  cases hi : firstSome? includeHere? line with
  | some target => rw [hi] at h; cases h
  | none =>
  cases hc : firstSome? callHere? line with
  | some body => rw [hi, hc] at h; cases h
  | none =>
  cases hclose : closing? line with
  | some k => rw [hi, hc, hclose] at h; cases h
  | none =>
  rw [hi, hc, hclose] at h
  cases hopen : opening? line with
  | some p =>
    rw [hopen] at h
    obtain ⟨rfl, rfl⟩ := Line.openSection.inj h
    exact ⟨p.1, p.2, rfl, rfl, rfl⟩
  | none =>
    rw [hopen] at h
    cases hpair : (equalsPair? line).or (blankPair? line) with
    | none => rw [hpair] at h; cases h
    | some p => rw [hpair] at h; cases h

theorem opening?_form {line name : Text} {label : Option Text}
    (h : opening? line = some (name, label)) :
    IsWord name ∧ ∀ t ∈ label, IsWord t := by
  rw [opening?] at h
  cases hin : inside? ['<'] line with
  | none => rw [hin] at h; cases h
  | some content =>
    rw [hin] at h
    cases hcut : cutWord content with
    | mk word rest =>
      obtain ⟨-, hword, -⟩ := cutWord_eq hcut
      dsimp only at h
      rw [hcut] at h
      dsimp only at h
      split at h
      · cases h
      · rename_i hblank
        simp only [Bool.or_eq_true, not_or, Bool.not_eq_true, List.isEmpty_eq_false_iff,
          List.any_eq_false] at hblank
        obtain ⟨rfl, rfl⟩ := Prod.mk.inj (Option.some.inj h)
        refine ⟨⟨hblank.1, hword⟩, fun t ht => ?_⟩
        split at ht
        · cases ht
        · rename_i hne
          obtain rfl := Option.some.inj ht
          exact ⟨by simpa using hne, fun c hc => by simpa using hblank.2 c hc⟩

theorem isWord_lower {t : Text} (h : IsWord t) : IsWord t.lower :=
  ⟨lower_ne_nil h.1, isBlank_of_mem_lower h.2⟩

/-- The keys of an opening tag are words as they are stored. -/
theorem isWord_of_classify_openSection {line key : Text} {label : Option Text}
    (h : classify line = openSection key label) :
    IsWord key.lower ∧ ∀ t ∈ label, IsWord t.lower := by
  obtain ⟨name, inner, hopen, rfl, rfl⟩ := classify_openSection_inv h
  obtain ⟨hname, hinner⟩ := opening?_form hopen
  refine ⟨isWord_lower (isWord_lower hname), fun t ht => ?_⟩
  obtain ⟨u, hu, rfl⟩ := Option.map_eq_some_iff.mp ht
  exact isWord_lower (isWord_lower (hinner u hu))

/-- What is between the parts of a tag that are left when a pair is cut out is `=` alone. -/
theorem closing?_isSome_of_pair {line blanks z : Text}
    (hline : line.trimStart = ['<', '/'] ++ (blanks ++ '=' :: z))
    (hb : ∀ c ∈ blanks, isBlank c = true) (hz : z.trim = ['>']) : (closing? line).isSome := by
  obtain ⟨a, b, hsplit, ha, hb'⟩ := eq_blanks_trim_blanks z
  rw [hz] at hsplit
  have hin : inside? ['<', '/'] line = some (blanks ++ '=' :: a) := by
    refine inside?_eq_some_iff.mpr ⟨blanks ++ '=' :: z, hline, ?_⟩
    have hassoc : blanks ++ '=' :: z = (blanks ++ '=' :: a) ++ ['>'] ++ b := by
      rw [hsplit]
      simp
    rw [hassoc, trimEnd_append_blanks hb', trimEnd_of_last]
    rw [List.getLast?_concat]
    intro c hsome
    cases hsome
    rfl
  have htrim : trim (blanks ++ '=' :: a) = ['='] := by
    rw [trim_blanks_append hb]
    show trim (['='] ++ a) = ['=']
    rw [trim_eq_trimEnd (by rintro c ⟨⟩; rfl), trimEnd_append_blanks ha]
    rfl
  rw [closing?, hin, Option.bind_some, word?, htrim]
  rfl

theorem opening?_isSome_of_pair {line blanks z : Text}
    (hline : line.trimStart = ['<', '/'] ++ (blanks ++ z)) (hb : ∀ c ∈ blanks, isBlank c = true)
    (hhead : ∀ c ∈ z.head?, isBlank c = false) (hz : z.trim = ['>']) :
    (opening? line).isSome := by
  obtain ⟨a, b, hsplit, ha, hb'⟩ := eq_blanks_trim_blanks z
  rw [hz] at hsplit
  -- No blank is left at the start of `z`, so the tag ends right there.
  have hnil : a = [] := by
    cases a with
    | nil => rfl
    | cons c a =>
      have hc := ha c (by simp)
      rw [hhead c (by simp [hsplit])] at hc
      cases hc
  subst hnil
  have hin : inside? ['<'] line = some (['/'] ++ blanks) := by
    refine inside?_eq_some_iff.mpr ⟨'/' :: (blanks ++ z), hline, ?_⟩
    have hassoc : '/' :: (blanks ++ z) = ('/' :: blanks) ++ ['>'] ++ b := by
      rw [hsplit]
      simp
    rw [hassoc, trimEnd_append_blanks hb', trimEnd_of_last]
    · rfl
    · rw [List.getLast?_concat]
      intro c hsome
      cases hsome
      rfl
  have hcut : cutWord (['/'] ++ blanks) = (['/'], blanks) := by
    refine cutWord_append (by decide) ?_
    intro c hc
    exact hb c (List.mem_of_mem_head? hc)
  have htrim : trimStart blanks = [] := by
    have h := trimStart_blanks_append hb []
    rwa [List.append_nil] at h
  rw [opening?, hin]
  dsimp only
  rw [hcut]
  dsimp only
  rw [htrim]
  rfl

/-- What a line that says a pair has: the key is a word and the value a trimmed part of the line
without a directive, and they are not cut out of a tag. -/
theorem classify_pair_form {line key value : Text} (h : classify line = pair key value) :
    IsWord key ∧ value.trim = value ∧ value <:+ line.trim
      ∧ firstSome? includeHere? value = none ∧ firstSome? callHere? value = none
      ∧ ¬ (key = ['<', '/'] ∧ value = ['>']) := by
  obtain ⟨hinclude, hcall, hclose, hopen, hpair⟩ := classify_pair_inv h
  obtain ⟨hkey, -, htrim, hsuffix⟩ := pair_form hpair
  obtain ⟨hvi, hvc⟩ := no_directive_of_suffix_trim hsuffix hinclude hcall
  refine ⟨hkey, htrim, hsuffix, hvi, hvc, ?_⟩
  intro hgiven
  obtain ⟨rfl, hvalue⟩ := hgiven
  cases heq : equalsPair? line with
  | some p =>
    rw [heq] at hpair
    obtain rfl := Option.some.inj hpair
    obtain ⟨-, blanks, z, hline, hb, -, hz⟩ := equalsPair?_form heq
    have hsome := closing?_isSome_of_pair hline hb (hz.symm.trans hvalue)
    rw [hclose] at hsome
    cases hsome
  | none =>
    rw [heq] at hpair
    obtain ⟨-, blanks, z, hline, -, hb, hhead, hz⟩ := blankPair?_form hpair
    have hsome := opening?_isSome_of_pair hline hb hhead (hz.symm.trans hvalue)
    rw [hopen] at hsome
    cases hsome

/-- A line without blanks at its end has no empty value. -/
theorem value_ne_nil_of_classify {line key value : Text} (h : classify line = pair key value)
    (hlast : ∀ c ∈ line.getLast?, isBlank c = false) : value ≠ [] := by
  obtain ⟨-, -, -, -, hpair⟩ := classify_pair_inv h
  have hend : ∀ {lead z : Text}, line.trimStart = lead ++ z → z ≠ [] → z.trim ≠ [] := by
    intro lead z hline hz hnil
    obtain ⟨before, hbefore⟩ := trimStart_suffix line
    obtain ⟨init, c, rfl⟩ := List.eq_nil_or_concat z |>.resolve_left hz
    have hc : c ∈ line.getLast? := by
      rw [← hbefore, hline, List.concat_eq_append, ← List.append_assoc, ← List.append_assoc,
        List.getLast?_concat]
      rfl
    have hblank := trim_eq_nil_iff.mp hnil c (by simp)
    rw [hlast c hc] at hblank
    cases hblank
  cases heq : equalsPair? line with
  | some p =>
    rw [heq] at hpair
    obtain rfl := Option.some.inj hpair
    obtain ⟨-, blanks, z, hline, -, hz, rfl⟩ := equalsPair?_form heq
    have hassoc : line.trimStart = (key ++ (blanks ++ ['='])) ++ z := by
      rw [hline]
      simp
    exact hend hassoc hz
  | none =>
    rw [heq] at hpair
    obtain ⟨-, blanks, z, hline, hne, hb, -, rfl⟩ := blankPair?_form hpair
    by_cases hz : z = []
    · -- Then the line would end in the blanks behind the key.
      rw [hz, List.append_nil] at hline
      exact absurd (trim_eq_nil_iff.mpr hb) (hend hline hne)
    · rw [← List.append_assoc] at hline
      exact hend hline hz

/-! ## Lines that begin with a word -/

/-- Whether a line is a word, or a word with ` =` behind it and perhaps more. -/
def BeginsWith (word line : Text) : Prop :=
  line = word ∨ line = word ++ [' ', '='] ∨ ∃ rest, line = pairText word rest

theorem opening?_word {word name : Text} {label : Option Text}
    (hw : ∀ c ∈ word, isBlank c = false) (h : opening? word = some (name, label)) :
    label = none ∧ name <:+: word := by
  rw [opening?] at h
  cases hin : inside? ['<'] word with
  | none => rw [hin] at h; cases h
  | some content =>
    rw [hin] at h
    obtain ⟨rest, hstart, hend⟩ := inside?_eq_some_iff.mp hin
    have hinside : content <:+: word := by
      have hcontent : content <:+: rest.trimEnd := ⟨[], ['>'], by rw [hend]; rfl⟩
      have hrest : rest <:+: word.trimStart := ⟨['<'], [], by rw [hstart]; simp⟩
      exact (hcontent.trans (trimEnd_prefix_self rest).isInfix).trans
        (hrest.trans (trimStart_suffix word).isInfix)
    have hcut : cutWord content = (content, []) := by
      have hcut : cutWord (content ++ []) = (content, []) :=
        cutWord_append (fun c hc => hw c (hinside.subset hc)) (by simp)
      rwa [List.append_nil] at hcut
    dsimp only at h
    rw [hcut] at h
    dsimp only at h
    split at h
    · cases h
    · obtain ⟨rfl, rfl⟩ := Prod.mk.inj (Option.some.inj h)
      exact ⟨rfl, hinside⟩

theorem opening?_equals (key : Text) : opening? (key ++ [' ', '=']) = none := by
  rw [opening?]
  cases hin : inside? ['<'] (key ++ [' ', '=']) with
  | none => rfl
  | some content =>
    -- The line ends in `=`, not in `>`.
    obtain ⟨rest, hstart, hend⟩ := inside?_eq_some_iff.mp hin
    obtain ⟨lead, hlead⟩ := trimStart_suffix (key ++ [' ', '='])
    cases hrest : rest.getLast? with
    | none =>
      rw [List.getLast?_eq_none_iff.mp hrest] at hend
      exact absurd hend (by simp [trimEnd])
    | some c =>
      have hlast : some '=' = some c := by
        have h := congrArg List.getLast? hlead
        rw [hstart, ← List.append_assoc, List.getLast?_append, hrest,
          List.getLast?_append (l := key)] at h
        exact h.symm
      obtain rfl := Option.some.inj hlast
      have htrim : rest.trimEnd = rest := by
        refine trimEnd_of_last ?_
        rw [hrest]
        intro c hsome
        cases hsome
        rfl
      have h := congrArg List.getLast? hend
      rw [htrim, hrest, List.getLast?_concat] at h
      cases h

/-- The keys that a line says which begins with a word are parts of that word. -/
theorem BeginsWith.keys {word line : Text} (hw : IsWord word) (hline : BeginsWith word line) :
    (∀ key value, classify line = pair key value → key <+: word)
      ∧ ∀ key label, classify line = openSection key label →
          label = none ∧ ∃ name : Text, name <:+: word ∧ key = name.lower := by
  have hrest : ∃ rest, line = word ++ rest ∧ ∀ c ∈ rest.head?, isBlank c = true := by
    rcases hline with rfl | rfl | ⟨rest, rfl⟩
    · exact ⟨[], by simp, by simp⟩
    · exact ⟨[' ', '='], rfl, by rintro c ⟨⟩; rfl⟩
    · exact ⟨' ' :: '=' :: ' ' :: rest, rfl, by rintro c ⟨⟩; rfl⟩
  constructor
  · intro key value h
    obtain ⟨-, -, -, -, hpair⟩ := classify_pair_inv h
    obtain ⟨hkey, ⟨more, hmore⟩, -, -⟩ := pair_form hpair
    obtain ⟨rest, hsplit, hblank⟩ := hrest
    have hstart : line.trimStart = word ++ rest := by
      rw [hsplit, trimStart_of_head]
      cases word with
      | nil => exact absurd rfl hw.1
      | cons w word =>
        intro c hsome
        cases hsome
        exact hw.2 w (by simp)
    rw [hstart] at hmore
    rcases List.append_eq_append_iff.mp hmore with ⟨as, hword, -⟩ | ⟨cs, hkeyEq, hrestEq⟩
    · exact ⟨as, hword.symm⟩
    · -- The key has no blank, so it does not go beyond the word.
      cases cs with
      | nil => exact ⟨[], by simp [hkeyEq]⟩
      | cons c cs =>
        have hc := hblank c (by simp [hrestEq])
        rw [hkey.2 c (by simp [hkeyEq])] at hc
        cases hc
  · intro key label h
    obtain ⟨name, inner, hopen, hkey, hlabel⟩ := classify_openSection_inv h
    rcases hline with rfl | rfl | ⟨rest, rfl⟩
    · obtain ⟨rfl, hname⟩ := opening?_word hw.2 hopen
      exact ⟨hlabel, name, hname, hkey⟩
    · rw [opening?_equals] at hopen
      cases hopen
    · rw [opening?_pairText hw] at hopen
      cases hopen

end Line

end WorkflowControl
