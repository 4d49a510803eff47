import WorkflowControl.Line
import WorkflowControl.Proofs.Text.Trim

/-!
How the lines that a document is written in are read: an opening tag (`classify_openTag`), a closing
tag (`classify_closeTag`), and a key with its value (`classify_pair`). The last one asks for more
than that key and value fit a line each. A key that ends in the opening of a function directive
begins one together with the blank that is written behind it, and a value can close it
(`SpellsCall`). This is the only directive that a line can have without its value having one.
-/

namespace WorkflowControl

namespace Text

/-- A non-empty text without blanks. -/
def IsWord (t : Text) : Prop := t ≠ [] ∧ ∀ c ∈ t, isBlank c = false

theorem behind?_eq_some_iff {start t rest : Text} :
    behind? start t = some rest ↔ t = start ++ rest := by
  induction start generalizing t with
  | nil => simp [behind?, eq_comm]
  | cons s start ih =>
    cases t with
    | nil => simp [behind?]
    | cons c t =>
      by_cases h : s = c
      · simp [behind?, h, ih]
      · simp [behind?, h, Ne.symm h]

@[simp] theorem behind?_append (start rest : Text) : behind? start (start ++ rest) = some rest :=
  behind?_eq_some_iff.mpr rfl

/-- Where the first blank of a text stands, the text falls into two parts in one way only. -/
theorem append_blank_inj {a b x y : Text} (ha : ∀ c ∈ a, isBlank c = false)
    (hb : ∀ c ∈ b, isBlank c = false) (h : a ++ ' ' :: x = b ++ ' ' :: y) : a = b ∧ x = y := by
  have stop : ∀ t z : Text, (∀ c ∈ t, isBlank c = false) →
      (t ++ ' ' :: z).takeWhile (fun c => !isBlank c) = t := by
    intro t z ht
    refine takeWhile_append_stop (fun c hc => by simp [ht c hc]) ?_
    intro c hc
    cases hc
    rfl
  have hab : a = b := by rw [← stop a x ha, h, stop b y hb]
  subst hab
  exact ⟨rfl, (List.cons.inj (List.append_cancel_left h)).2⟩

end Text

namespace Line

open Text

/-! ## Directives -/

theorem firstSome?_eq_none_iff {α : Type} {f : Text → Option α} {t : Text} :
    firstSome? f t = none ↔ ∀ u, u <:+ t → f u = none := by
  induction t with
  | nil => simp [firstSome?]
  | cons c t ih =>
    rw [firstSome?]
    constructor
    · intro h u hu
      cases hf : f (c :: t) with
      | some a => rw [hf] at h; cases h
      | none =>
        rw [hf] at h
        rcases List.suffix_cons_iff.mp hu with rfl | hu
        · exact hf
        · exact ih.mp h u hu
    · intro h
      rw [h _ (List.suffix_refl _)]
      exact ih.mpr fun u hu => h u (hu.trans (List.suffix_cons c t))

theorem firstSome?_append {α : Type} {f : Text → Option α} {t r : Text}
    (ht : ∀ u, u <:+ t → u ≠ [] → f (u ++ r) = none) (hr : firstSome? f r = none) :
    firstSome? f (t ++ r) = none := by
  induction t with
  | nil => exact hr
  | cons c t ih =>
    have hhere : f (c :: (t ++ r)) = none := ht (c :: t) (List.suffix_refl _) (by simp)
    rw [List.cons_append, firstSome?, hhere]
    exact ih fun u hu hne => ht u (hu.trans (List.suffix_cons c t)) hne

theorem includeHere?_eq_none {t : Text} (h : ¬ includeOpening <+: t) : includeHere? t = none := by
  unfold includeHere?
  cases hb : behind? includeOpening t with
  | none => rfl
  | some rest => exact absurd ⟨rest, (behind?_eq_some_iff.mp hb).symm⟩ h

theorem callHere?_eq_none {t : Text} (h : ¬ callOpening <+: t) : callHere? t = none := by
  unfold callHere?
  cases hb : behind? callOpening t with
  | none => rfl
  | some rest => exact absurd ⟨rest, (behind?_eq_some_iff.mp hb).symm⟩ h

/-- A text in which a directive does not open has none. -/
theorem firstSome?_includeHere?_eq_none {t : Text} (h : ¬ includeOpening <:+: t) :
    firstSome? includeHere? t = none :=
  firstSome?_eq_none_iff.mpr fun _ hu => includeHere?_eq_none fun hp =>
    h (hp.isInfix.trans hu.isInfix)

theorem firstSome?_callHere?_eq_none {t : Text} (h : ¬ callOpening <:+: t) :
    firstSome? callHere? t = none :=
  firstSome?_eq_none_iff.mpr fun _ hu => callHere?_eq_none fun hp =>
    h (hp.isInfix.trans hu.isInfix)

/-- The openings have a blank, so a text without blanks has no directive. -/
theorem no_directive_of_no_blank {t : Text} (h : ∀ c ∈ t, isBlank c = false) :
    firstSome? includeHere? t = none ∧ firstSome? callHere? t = none := by
  have absent : ∀ opening : Text, ' ' ∈ opening → ¬ opening <:+: t := by
    intro opening hmem hin
    have hblank := h ' ' (hin.subset hmem)
    exact absurd hblank (by decide)
  exact ⟨firstSome?_includeHere?_eq_none (absent _ (by decide)),
    firstSome?_callHere?_eq_none (absent _ (by decide))⟩

/-- The opening of an include directive without its blank. -/
def includeWord : Text := ['<', '<', 'i', 'n', 'c', 'l', 'u', 'd', 'e']

/-- The opening of a function directive without its blank. -/
def callWord : Text := ['<', '<', 'i', 'n', 'c', 'l', 'f', 'u', 'n', 'c']

/-- Whether a key and its value, written one behind the other, spell a function directive that
begins in the key. -/
def SpellsCall (key value : Text) : Prop :=
  callWord <:+ key ∧ (value.dropWhile (· != '>')).take 2 = ['>', '>']

instance (key value : Text) : Decidable (SpellsCall key value) :=
  inferInstanceAs (Decidable (_ ∧ _))

/-- What is written for a key and its value. -/
def pairText (key value : Text) : Text := key ++ ' ' :: '=' :: ' ' :: value

/-- What is written where a section opens. -/
def openTag (key : Text) : Text := '<' :: (key ++ ['>'])

/-- What is written where a section closes. -/
def closeTag (key : Text) : Text := '<' :: '/' :: (key ++ ['>'])

/-- A directive does not begin behind the key unless the value has one. -/
theorem firstSome?_behind_key {α : Type} {f : Text → Option α} {value : Text}
    (hf : ∀ t : Text, t.head? ≠ some '<' → f t = none) (hv : firstSome? f value = none) :
    firstSome? f (' ' :: '=' :: ' ' :: value) = none := by
  simp only [firstSome?, hf _ (show (' ' :: '=' :: ' ' :: value).head? ≠ _ by simp),
    hf _ (show ('=' :: ' ' :: value).head? ≠ _ by simp),
    hf _ (show (' ' :: value).head? ≠ _ by simp), hv]

theorem head_of_prefix_cons {a : Char} {as t : Text} (h : a :: as <+: t) : t.head? = some a := by
  obtain ⟨rest, rfl⟩ := h
  rfl

theorem no_include_pairText {key value : Text} (hk : ∀ c ∈ key, isBlank c = false)
    (hv : firstSome? includeHere? value = none) :
    firstSome? includeHere? (pairText key value) = none := by
  have hhead : ∀ t : Text, t.head? ≠ some '<' → includeHere? t = none :=
    fun t ht => includeHere?_eq_none fun hp => ht (head_of_prefix_cons hp)
  refine firstSome?_append ?_ (firstSome?_behind_key hhead hv)
  intro u hu _
  unfold includeHere?
  cases hb : behind? includeOpening (u ++ ' ' :: '=' :: ' ' :: value) with
  | none => rfl
  | some rest =>
    -- The blank of the opening is the one behind the key, so the target would be `=`.
    have hsplit : u ++ ' ' :: ('=' :: ' ' :: value) = includeWord ++ ' ' :: rest := by
      rw [behind?_eq_some_iff.mp hb]
      rfl
    have hrest := (append_blank_inj (fun c hc => hk c (hu.subset hc)) (by decide) hsplit).2
    subst hrest
    rfl

theorem callHere?_behind_key {u value : Text} (hu : ∀ c ∈ u, isBlank c = false) :
    (callHere? (u ++ ' ' :: '=' :: ' ' :: value)).isSome
      ↔ u = callWord ∧ (value.dropWhile (· != '>')).take 2 = ['>', '>'] := by
  unfold callHere?
  cases hb : behind? callOpening (u ++ ' ' :: '=' :: ' ' :: value) with
  | none =>
    simp only [Option.isSome_none, Bool.false_eq_true, false_iff, not_and]
    intro hcall
    subst hcall
    have hsome : behind? callOpening (callWord ++ ' ' :: '=' :: ' ' :: value)
        = some ('=' :: ' ' :: value) := rfl
    rw [hsome] at hb
    cases hb
  | some rest =>
    have hsplit : u ++ ' ' :: ('=' :: ' ' :: value) = callWord ++ ' ' :: rest := by
      rw [behind?_eq_some_iff.mp hb]
      rfl
    obtain ⟨rfl, rfl⟩ := append_blank_inj hu (by decide) hsplit
    by_cases hend : (value.dropWhile (· != '>')).take 2 = ['>', '>']
    · simp [hend]
    · simp [hend]

theorem no_call_pairText {key value : Text} (hk : ∀ c ∈ key, isBlank c = false)
    (hv : firstSome? callHere? value = none) (hcall : ¬ SpellsCall key value) :
    firstSome? callHere? (pairText key value) = none := by
  have hhead : ∀ t : Text, t.head? ≠ some '<' → callHere? t = none :=
    fun t ht => callHere?_eq_none fun hp => ht (head_of_prefix_cons hp)
  refine firstSome?_append ?_ (firstSome?_behind_key hhead hv)
  intro u hu _
  cases hh : callHere? (u ++ ' ' :: '=' :: ' ' :: value) with
  | none => rfl
  | some body =>
    have hsome : (callHere? (u ++ ' ' :: '=' :: ' ' :: value)).isSome := by rw [hh]; rfl
    obtain ⟨rfl, hend⟩ := (callHere?_behind_key fun c hc => hk c (hu.subset hc)).mp hsome
    exact absurd ⟨hu, hend⟩ hcall

/-! ## Tags -/

theorem inside?_eq_some_iff {opening line content : Text} :
    inside? opening line = some content
      ↔ ∃ rest, line.trimStart = opening ++ rest ∧ rest.trimEnd = content ++ ['>'] := by
  unfold inside?
  cases hb : behind? opening line.trimStart with
  | none =>
    simp only [reduceCtorEq, false_iff, not_exists, not_and]
    intro rest hrest
    rw [behind?_eq_some_iff.mpr hrest] at hb
    cases hb
  | some rest =>
    have hline := behind?_eq_some_iff.mp hb
    constructor
    · intro h
      refine ⟨rest, hline, ?_⟩
      dsimp only at h
      split at h
      · rename_i hlast
        obtain ⟨init, hinit⟩ := List.getLast?_eq_some_iff.mp hlast
        rw [hinit, List.dropLast_concat] at h
        rw [hinit, Option.some.inj h]
      · cases h
    · intro hgiven
      obtain ⟨rest', hline', hend⟩ := hgiven
      have hrest : rest' = rest := List.append_cancel_left (hline'.symm.trans hline)
      rw [hrest] at hend
      simp [hend]

/-- The inside of a tag that begins with a character other than a blank. -/
theorem inside?_tag (opening content : Text) (ho : ∀ c ∈ opening.head?, isBlank c = false)
    (hne : opening ≠ []) : inside? opening (opening ++ (content ++ ['>'])) = some content := by
  refine inside?_eq_some_iff.mpr ⟨content ++ ['>'], ?_, ?_⟩
  · refine trimStart_of_head ?_
    cases opening with
    | nil => exact absurd rfl hne
    | cons o opening => exact ho
  · refine trimEnd_of_last ?_
    rw [List.getLast?_concat]
    intro c hc
    cases hc
    rfl

theorem cutWord_append {word rest : Text} (hw : ∀ c ∈ word, isBlank c = false)
    (hrest : ∀ c ∈ rest.head?, isBlank c = true) : cutWord (word ++ rest) = (word, rest) := by
  have hpos : ∀ c ∈ word, (!isBlank c) = true := fun c hc => by simp [hw c hc]
  have hstop : ∀ c ∈ rest.head?, (!isBlank c) = false := fun c hc => by simp [hrest c hc]
  rw [cutWord, takeWhile_append_stop hpos hstop, dropWhile_append_stop hpos hstop]

theorem word?_of_isWord {t : Text} (h : IsWord t) : word? t = some t := by
  have htrim : t.trim = t := trim_of_blank_free h.2
  have hany : t.any isBlank = false := by simpa using h.2
  rw [word?, htrim, hany]
  simp [h.1]

theorem isBlank_eq_false_of_word_append {t : Text} (h : IsWord t) {u : Text}
    (hu : ∀ c ∈ u, isBlank c = false) : ∀ c ∈ t ++ u, isBlank c = false := by
  intro c hc
  rcases List.mem_append.mp hc with hc | hc
  · exact h.2 c hc
  · exact hu c hc

theorem blank_free_openTag {key : Text} (hk : IsWord key) : ∀ c ∈ openTag key, isBlank c = false := by
  intro c hc
  rcases List.mem_cons.mp hc with rfl | hc
  · rfl
  · exact isBlank_eq_false_of_word_append hk (by decide) c hc

theorem blank_free_closeTag {key : Text} (hk : IsWord key) :
    ∀ c ∈ closeTag key, isBlank c = false := by
  intro c hc
  simp only [closeTag, List.mem_cons] at hc
  rcases hc with rfl | rfl | hc
  · rfl
  · rfl
  · exact isBlank_eq_false_of_word_append hk (by decide) c hc

theorem getLast_openTag (key : Text) : (openTag key).getLast? = some '>' :=
  List.getLast?_concat (l := '<' :: key)

theorem getLast_closeTag (key : Text) : (closeTag key).getLast? = some '>' :=
  List.getLast?_concat (l := '<' :: '/' :: key)

theorem classify_closeTag {key : Text} (hk : IsWord key) :
    classify (closeTag key) = close key.lower := by
  obtain ⟨hinc, hcall⟩ := no_directive_of_no_blank (blank_free_closeTag hk)
  have hin : inside? ['<', '/'] (closeTag key) = some key :=
    inside?_tag ['<', '/'] key (by decide) (by simp)
  rw [classify, hinc, hcall]
  simp only [closing?, hin, Option.bind_some, word?_of_isWord hk]

/-- The opening tag of a name behind a slash is the closing tag of that name. -/
theorem classify_openTag_slash {key : Text} (hk : IsWord key) (hslash : key.head? = some '/')
    (htail : key.tail ≠ []) : classify (openTag key) = close (Text.lower key.tail) := by
  obtain ⟨c, name, rfl⟩ := List.exists_cons_of_ne_nil hk.1
  obtain rfl : c = '/' := Option.some.inj hslash
  have hname : IsWord name := ⟨htail, fun d hd => hk.2 d (List.mem_cons_of_mem _ hd)⟩
  exact classify_closeTag hname

theorem classify_openTag {key : Text} (hk : IsWord key)
    (hslash : key.head? = some '/' → key.tail = []) :
    classify (openTag key) = openSection key.lower none := by
  obtain ⟨hinc, hcall⟩ := no_directive_of_no_blank (blank_free_openTag hk)
  have hclosing : closing? (openTag key) = none := by
    rw [closing?]
    cases hin : inside? ['<', '/'] (openTag key) with
    | none => rfl
    | some content =>
      -- Only the key `/` makes the tag begin like a closing one, and then no word is inside.
      obtain ⟨rest, hstart, hend⟩ := inside?_eq_some_iff.mp hin
      rw [trimStart_of_head (by rintro c ⟨⟩; rfl)] at hstart
      have hkey : key ++ ['>'] = '/' :: rest := (List.cons.inj hstart).2
      have hcontent : content = [] := by
        cases key with
        | nil => exact absurd rfl hk.1
        | cons c cs =>
          obtain ⟨rfl, hrest⟩ := List.cons.inj hkey
          have hcs : cs = [] := hslash rfl
          subst hcs hrest
          have hlen := congrArg List.length hend
          rw [trimEnd_of_last (by rintro c ⟨⟩; rfl), List.length_append] at hlen
          exact List.eq_nil_of_length_eq_zero (by simpa using hlen)
      subst hcontent
      rfl
  have hin : inside? ['<'] (openTag key) = some key :=
    inside?_tag ['<'] key (by decide) (by simp)
  have hcut : cutWord key = (key, []) := by
    have hcut : cutWord (key ++ []) = (key, []) := cutWord_append hk.2 (by simp)
    rwa [List.append_nil] at hcut
  have hopening : opening? (openTag key) = some (key, none) := by
    rw [opening?, hin]
    simp [hcut, trimStart, hk.1]
  rw [classify, hinc, hcall, hclosing, hopening]
  rfl

/-! ## Keys with their values -/

theorem pairText_append (key value more : Text) :
    pairText key (value ++ more) = pairText key value ++ more := by
  simp [pairText]

theorem getLast_pairText (key : Text) {value : Text} (hv : value ≠ []) :
    (pairText key value).getLast? = value.getLast? := by
  obtain ⟨body, c, rfl⟩ := List.eq_nil_or_concat value |>.resolve_left hv
  rw [List.concat_eq_append, pairText_append, List.getLast?_concat, List.getLast?_concat]

theorem dropLast_pairText (key : Text) {value : Text} (hv : value ≠ []) :
    (pairText key value).dropLast = pairText key value.dropLast := by
  obtain ⟨body, c, rfl⟩ := List.eq_nil_or_concat value |>.resolve_left hv
  rw [List.concat_eq_append, pairText_append, List.dropLast_concat, List.dropLast_concat]

theorem trimStart_pairText {key : Text} (hk : IsWord key) (value : Text) :
    (pairText key value).trimStart = pairText key value := by
  refine trimStart_of_head ?_
  cases key with
  | nil => exact absurd rfl hk.1
  | cons k key =>
    intro c hsome
    cases hsome
    exact hk.2 k (by simp)

theorem trim_pairText {key value : Text} (hk : IsWord key) (hv : value ≠ [])
    (htrim : value.trim = value) : (pairText key value).trim = pairText key value := by
  rw [trim, trimStart_pairText hk, trimEnd_of_last]
  rw [getLast_pairText key hv]
  exact (trim_eq_self_iff.mp htrim).2

theorem trim_pairText_nil {key : Text} (hk : IsWord key) :
    (pairText key []).trim = key ++ [' ', '='] := by
  have hsplit : pairText key [] = key ++ [' ', '='] ++ [' '] := by simp [pairText]
  have hend : trimEnd (key ++ [' ', '=']) = key ++ [' ', '='] := by
    rw [trimEnd_append_of_ne_nil (by decide)]
    rfl
  rw [trim, trimStart_pairText hk, hsplit, trimEnd_append_blanks (by decide), hend]

/-- A pair that begins and ends like a tag has the inside of the tag on both sides of its ` = `. -/
theorem inside?_pairText {opening key value content : Text} (hk : IsWord key)
    (ho : ∀ c ∈ opening, isBlank c = false) (h : inside? opening (pairText key value) = some content) :
    ∃ name body, key = opening ++ name ∧ value.trimEnd = body ++ ['>']
      ∧ content = pairText name body := by
  obtain ⟨rest, hstart, hend⟩ := inside?_eq_some_iff.mp h
  rw [trimStart_pairText hk] at hstart
  -- The opening has no blank, so it ends within the key.
  have hkey : ∃ name, key = opening ++ name ∧ rest = pairText name value := by
    rcases List.append_eq_append_iff.mp hstart with ⟨as, hopen, has⟩ | ⟨name, hname, hrest⟩
    · cases as with
      | nil => exact ⟨[], by simp [hopen], by simpa [pairText] using has.symm⟩
      | cons a as =>
        have ha : a = ' ' := (List.cons.inj has).1.symm
        have hblank := ho a (by simp [hopen])
        rw [ha] at hblank
        exact absurd hblank (by decide)
    · exact ⟨name, hname, hrest⟩
  obtain ⟨name, hname, hrest⟩ := hkey
  have hpair : ∀ t : Text, pairText name t = (name ++ [' ', '=', ' ']) ++ t := by
    intro t
    simp [pairText]
  rw [hrest, hpair] at hend
  by_cases hvalue : value.trimEnd = []
  · -- Then the pair ends in its `=`, not in `>`.
    have hequals : trimEnd (name ++ [' ', '=', ' ']) = name ++ [' ', '='] := by
      rw [trimEnd_append_of_ne_nil (by decide)]
      rfl
    rw [trimEnd_append_of_blank hvalue, hequals] at hend
    have hlast := congrArg List.getLast? hend
    rw [List.getLast?_concat, List.getLast?_append] at hlast
    cases hlast
  · rw [trimEnd_append_of_ne_nil hvalue] at hend
    obtain ⟨body, c, hbody⟩ := List.eq_nil_or_concat value.trimEnd |>.resolve_left hvalue
    rw [List.concat_eq_append] at hbody
    rw [hbody, ← List.append_assoc] at hend
    obtain ⟨hcontent, hc⟩ := List.append_inj' hend rfl
    exact ⟨name, body, hname, by rw [hbody, hc], by rw [hpair, hcontent]⟩

/-- What is cut out of a written pair is no word if anything is left on either side of ` = `. -/
theorem word?_pairText {name body : Text} (h : name ≠ [] ∨ body ≠ [])
    (hname : ∀ c ∈ name, isBlank c = false) (hbody : ∀ c ∈ body.head?, isBlank c = false) :
    word? (pairText name body) = none := by
  have hblank : ' ' ∈ (pairText name body).trim := by
    cases name with
    | nil =>
      cases body with
      | nil => simp at h
      | cons b body =>
        have hpre : ['=', ' ', b] <+: (pairText [] (b :: body)).trim :=
          prefix_trimEnd_append (by rintro c ⟨⟩; exact hbody b rfl) body
        exact hpre.subset (by simp)
    | cons n name =>
      have hhead : ∀ c ∈ (pairText (n :: name) body).head?, isBlank c = false := by
        intro c hsome
        cases hsome
        exact hname n (by simp)
      have hsplit : pairText (n :: name) body = (n :: name ++ [' '] ++ ['=']) ++ ' ' :: body := by
        simp [pairText]
      have hpre : n :: name ++ [' '] ++ ['='] <+: (pairText (n :: name) body).trim := by
        rw [trim_eq_trimEnd hhead, hsplit]
        refine prefix_trimEnd_append ?_ (' ' :: body)
        rw [List.getLast?_concat]
        decide
      exact hpre.subset (by simp)
  have hany : (pairText name body).trim.any isBlank = true := List.any_eq_true.mpr ⟨' ', hblank, rfl⟩
  simp only [word?, hany, Bool.or_true, if_true]

theorem opening?_pairText {key : Text} (hk : IsWord key) (value : Text) :
    opening? (pairText key value) = none := by
  rw [opening?]
  cases hin : inside? ['<'] (pairText key value) with
  | none => rfl
  | some content =>
    obtain ⟨name, body, hkey, -, hcontent⟩ := inside?_pairText hk (by decide) hin
    have hname : ∀ c ∈ name, isBlank c = false := fun c hc => hk.2 c (by simp [hkey, hc])
    -- The label would be `= ` and the rest of the value, which has a blank.
    have hcut : cutWord content = (name, ' ' :: '=' :: ' ' :: body) := by
      rw [hcontent, pairText]
      exact cutWord_append hname (by rintro c ⟨⟩; rfl)
    have hlabel : trimStart (' ' :: '=' :: ' ' :: body) = '=' :: ' ' :: body := rfl
    have hany : List.any ('=' :: ' ' :: body) isBlank = true := rfl
    simp only [hcut, hlabel, hany, Bool.or_true, if_true]

theorem equalsPair?_pairText {key : Text} (hk : IsWord key) (value : Text) :
    equalsPair? (pairText key value) = some (key, value.trim) := by
  have hcut : cutWord (pairText key value) = (key, ' ' :: '=' :: ' ' :: value) :=
    cutWord_append hk.2 (by rintro c ⟨⟩; rfl)
  have hrest : trimStart (' ' :: '=' :: ' ' :: value) = '=' :: ' ' :: value := rfl
  have hvalue : trim (' ' :: value) = value.trim := trim_blanks_append (u := [' ']) (by decide) value
  have hne : key.isEmpty = false := by simp [hk.1]
  simp only [equalsPair?, trimStart_pairText hk, hcut, hne, hrest, hvalue, Bool.false_eq_true,
    if_false]

theorem firstSome?_isSome_append {α : Type} {f : Text → Option α} {u : Text} (h : (f u).isSome)
    (t : Text) : (firstSome? f (t ++ u)).isSome := by
  induction t with
  | nil =>
    cases u with
    | nil => exact h
    | cons c cs =>
      obtain ⟨a, ha⟩ := Option.isSome_iff_exists.mp h
      rw [List.nil_append, firstSome?, ha]
      rfl
  | cons c t ih =>
    show (firstSome? f (c :: (t ++ u))).isSome
    rw [firstSome?]
    split
    · rfl
    · exact ih

/-- A key and its value that spell a function directive are read as one. -/
theorem classify_of_spellsCall {key value : Text} (hk : IsWord key)
    (hinc : firstSome? includeHere? value = none) (h : SpellsCall key value) :
    ∃ body, classify (pairText key value) = includeCall body := by
  obtain ⟨⟨before, rfl⟩, hclose⟩ := h
  have hhere : (callHere? (pairText callWord value)).isSome :=
    (callHere?_behind_key (by decide)).mpr ⟨rfl, hclose⟩
  have hcall := firstSome?_isSome_append hhere before
  rw [pairText, ← List.append_assoc, ← pairText] at hcall
  obtain ⟨body, hbody⟩ := Option.isSome_iff_exists.mp hcall
  refine ⟨body, ?_⟩
  rw [classify, no_include_pairText hk.2 hinc, hbody]

/-- A key that is a word, written with its value, is read back as it was, provided the two spell no
directive and no closing tag. -/
theorem classify_pair {key value : Text} (hk : IsWord key)
    (htrim : value.trim = value) (hinc : firstSome? includeHere? value = none)
    (hcall : firstSome? callHere? value = none) (hspell : ¬ SpellsCall key value)
    (htag : ¬ (key = ['<', '/'] ∧ value = ['>'])) :
    classify (pairText key value) = pair key value := by
  have hclosing : closing? (pairText key value) = none := by
    rw [closing?]
    cases hin : inside? ['<', '/'] (pairText key value) with
    | none => rfl
    | some content =>
      obtain ⟨name, body, hkey, hvalue, hcontent⟩ := inside?_pairText hk (by decide) hin
      rw [trimEnd_of_last (trim_eq_self_iff.mp htrim).2] at hvalue
      rw [Option.bind_some, hcontent]
      refine word?_pairText ?_ (fun c hc => hk.2 c (by simp [hkey, hc])) ?_
      · by_cases hname : name = []
        · refine .inr fun hbody => htag ?_
          exact ⟨by simp [hkey, hname], by simp [hvalue, hbody]⟩
        · exact .inl hname
      · intro c hc
        refine (trim_eq_self_iff.mp htrim).1 c ?_
        cases body with
        | nil => cases hc
        | cons b body => simpa [hvalue] using hc
  rw [classify, no_include_pairText hk.2 hinc, no_call_pairText hk.2 hcall hspell, hclosing,
    opening?_pairText hk, equalsPair?_pairText hk, htrim]
  rfl

end Line

end WorkflowControl
