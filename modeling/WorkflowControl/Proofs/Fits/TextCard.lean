import WorkflowControl.Proofs.Fits.Units
import WorkflowControl.Proofs.Text.Ascii

/-!
Cards with a text value, as they are written and as they are read. A quote in the value is written
twice, so the closing quote is the first one that is not the first of two, whatever else is in the
value and behind it (`quoted_doubled`). A card of ASCII that fits its columns is read as the keyword
and the value that it is written from (`ofBytes_text`).
-/

namespace WorkflowControl.Fits

open Text

/-- Whether a keyword may have a character: a letter, a digit, a hyphen or an underscore. -/
def isKeywordChar (c : Char) : Bool :=
  ('A' ≤ c && c ≤ 'Z') || ('a' ≤ c && c ≤ 'z') || ('0' ≤ c && c ≤ '9') || c == '-' || c == '_'

/-- A keyword with the blanks that fill up its columns. -/
def keywordColumns (keyword : Text) : Text :=
  keyword ++ List.replicate (Card.keywordSize - keyword.length) ' '

/-- The text with every quote in it twice. -/
def doubled (t : Text) : Text := t.flatMap fun c => if c = '\x27' then [c, c] else [c]

/-- What a card with a text value is written from: the keyword, the blanks before the opening quote,
the value, and what is behind the closing quote, such as a comment. -/
structure TextCard where
  keyword : Text
  gap : Text := []
  value : Text
  behind : Text := []

namespace TextCard

/-- The card up to where it is filled up with blanks. -/
def text (card : TextCard) : Text :=
  keywordColumns card.keyword
    ++ '=' :: ' ' :: (card.gap ++ '\x27' :: (doubled card.value ++ '\x27' :: card.behind))

/-- Whether a card is one of ASCII that fits its columns. Blanks at the end of the value would not
count, and a quote that follows the closing one would make it part of the value. -/
structure IsProper (card : TextCard) : Prop where
  keywordLength : 0 < card.keyword.length ∧ card.keyword.length ≤ Card.keywordSize
  keywordChars : ∀ c ∈ card.keyword, isKeywordChar c = true
  not_last : card.keyword ≠ Card.lastKeyword
  gap : IsAscii card.gap ∧ ∀ c ∈ card.gap, isBlank c = true
  value : IsAscii card.value ∧ card.value.trimEnd = card.value
  behind : IsAscii card.behind ∧ card.behind.head? ≠ some '\x27'
  length : card.text.length ≤ cardSize

end TextCard

/-! ## Keywords -/

/-- A character of a keyword is in ASCII and no blank. -/
theorem toNat_of_isKeywordChar {c : Char} (h : isKeywordChar c = true) :
    32 < c.toNat ∧ c.toNat < 128 := by
  simp only [isKeywordChar, Bool.or_eq_true, Bool.and_eq_true, decide_eq_true_eq, beq_iff_eq,
    le_iff_toNat] at h
  rcases h with (((h | h) | h) | rfl) | rfl
  · have hrange : 65 ≤ c.toNat ∧ c.toNat ≤ 90 := h
    omega
  · have hrange : 97 ≤ c.toNat ∧ c.toNat ≤ 122 := h
    omega
  · have hrange : 48 ≤ c.toNat ∧ c.toNat ≤ 57 := h
    omega
  · decide
  · decide

theorem isAscii_spaces (n : Nat) : IsAscii (List.replicate n ' ') := by
  intro c hc
  rw [List.eq_of_mem_replicate hc]
  decide

section

variable {keyword : Text}

theorem length_keywordColumns (h : keyword.length ≤ Card.keywordSize) :
    (keywordColumns keyword).length = Card.keywordSize := by
  rw [keywordColumns, List.length_append, List.length_replicate]
  omega

theorem isAscii_keywordColumns (h : ∀ c ∈ keyword, isKeywordChar c = true) :
    IsAscii (keywordColumns keyword) := by
  apply isAscii_append.mpr
  constructor
  · exact fun c hc => (toNat_of_isKeywordChar (h c hc)).2
  · exact isAscii_spaces _

theorem trimEnd_keywordColumns (h : ∀ c ∈ keyword, isKeywordChar c = true) :
    (keywordColumns keyword).trimEnd = keyword := by
  rw [keywordColumns, trimEnd_append_blanks, trimEnd_of_last]
  · intro c hc
    exact isBlank_eq_false_of_range (toNat_of_isKeywordChar (h c (List.mem_of_getLast? hc)))
  · intro c hc
    rw [List.eq_of_mem_replicate hc]
    decide

end

/-! ## Quotes -/

variable {t rest : Text}

theorem quoted_cons_of_ne {c : Char} (h : c ≠ '\x27') (t : Text) :
    Card.quoted (c :: t) = c :: Card.quoted t := by
  cases t with
  | nil => simp [Card.quoted]
  | cons d t => rw [Card.quoted, if_neg h]

theorem quoted_quotes (t : Text) : Card.quoted ('\x27' :: '\x27' :: t) = '\x27' :: Card.quoted t := by
  rw [Card.quoted, if_pos rfl, if_pos rfl]

theorem quoted_closing (h : rest.head? ≠ some '\x27') : Card.quoted ('\x27' :: rest) = [] := by
  cases rest with
  | nil => rfl
  | cons c rest =>
    have hc : c ≠ '\x27' := fun hc => h (congrArg some hc)
    rw [Card.quoted, if_pos rfl, if_neg hc]

/-- The blanks that fill a card up do not make the closing quote the first of two. -/
theorem head?_append_spaces (h : rest.head? ≠ some '\x27') (n : Nat) :
    (rest ++ List.replicate n ' ').head? ≠ some '\x27' := by
  cases rest with
  | cons c rest => exact h
  | nil =>
    intro hc
    have hblank := List.eq_of_mem_replicate (List.mem_of_head? hc)
    revert hblank
    decide

theorem doubled_cons (c : Char) (t : Text) :
    doubled (c :: t) = (if c = '\x27' then [c, c] else [c]) ++ doubled t := List.flatMap_cons

/-- The text in quotes is read up to the closing quote, with every quote in it once. -/
theorem quoted_doubled (h : rest.head? ≠ some '\x27') :
    Card.quoted (doubled t ++ '\x27' :: rest) = t := by
  induction t with
  | nil => exact quoted_closing h
  | cons c t ih =>
    rw [doubled_cons]
    by_cases hc : c = '\x27'
    · rw [if_pos hc, hc]
      show Card.quoted ('\x27' :: '\x27' :: (doubled t ++ '\x27' :: rest)) = '\x27' :: t
      rw [quoted_quotes, ih]
    · rw [if_neg hc]
      show Card.quoted (c :: (doubled t ++ '\x27' :: rest)) = c :: t
      rw [quoted_cons_of_ne hc, ih]

theorem isAscii_doubled (h : IsAscii t) : IsAscii (doubled t) := by
  intro c hc
  obtain ⟨d, hd, hc⟩ := List.mem_flatMap.mp hc
  have heq : c = d := by
    split at hc
    · simpa using hc
    · simpa using hc
  rw [heq]
  exact h d hd

/-- A field with a value in quotes is read as the value. -/
theorem readValue_quoted {gap value : Text} (hgap : ∀ c ∈ gap, isBlank c = true)
    (hvalue : value.trimEnd = value) (h : rest.head? ≠ some '\x27') :
    Card.readValue (gap ++ '\x27' :: (doubled value ++ '\x27' :: rest)) = value := by
  have htrim : trimStart (gap ++ '\x27' :: (doubled value ++ '\x27' :: rest))
      = '\x27' :: (doubled value ++ '\x27' :: rest) := by
    rw [trimStart_blanks_append hgap, trimStart_of_head]
    intro c hc
    obtain rfl := Option.some.inj hc
    decide
  rw [Card.readValue, htrim]
  show (Card.quoted (doubled value ++ '\x27' :: rest)).trimEnd = value
  rw [quoted_doubled h, hvalue]

/-! ## Cards -/

/-- A text that begins with a keyword, filled up to its columns, is read as that keyword with the
value of its field. -/
theorem ofText_keyed {keyword field : Text} (hlength : keyword.length ≤ Card.keywordSize)
    (hchars : ∀ c ∈ keyword, isKeywordChar c = true) (hne : keyword ≠ [])
    (hlast : keyword ≠ Card.lastKeyword) :
    Card.ofText (keywordColumns keyword ++ '=' :: ' ' :: field)
      = .value keyword.upper (Card.readValue field) := by
  have hsplit := splitAtByte_of_ascii (isAscii_keywordColumns hchars) ('=' :: ' ' :: field)
  rw [length_keywordColumns hlength] at hsplit
  rw [Card.ofText, hsplit]
  dsimp only
  rw [trimEnd_keywordColumns hchars, if_neg hlast]
  exact if_neg (by rwa [List.isEmpty_iff])

/-- The bytes of a card are read as its text with blanks behind it. -/
theorem decodeLossy_cardBytes (h : IsAscii t) :
    decodeLossy (cardBytes t) = t ++ List.replicate (cardSize - t.length) ' ' := by
  have hdecode := decodeLossy_of_ascii
    (isAscii_append.mpr ⟨h, isAscii_spaces (cardSize - t.length)⟩)
  rw [List.map_append, List.map_replicate] at hdecode
  exact hdecode

namespace TextCard

variable {card : TextCard}

theorem IsProper.isAscii_text (h : card.IsProper) : IsAscii card.text := by
  apply isAscii_append.mpr
  constructor
  · exact isAscii_keywordColumns h.keywordChars
  · simp only [isAscii_cons, isAscii_append]
    exact ⟨by decide, by decide, h.gap.1, by decide, isAscii_doubled h.value.1, by decide,
      h.behind.1⟩

/-- A card with a text value has as many bytes as a card has, and is read as its keyword in upper
case and its value. -/
theorem ofBytes_text (h : card.IsProper) :
    (cardBytes card.text).length = cardSize
      ∧ Card.ofBytes (cardBytes card.text) = .value card.keyword.upper card.value := by
  have hlength := h.length
  constructor
  · rw [cardBytes, List.length_append, List.length_map, List.length_replicate]
    omega
  · have hne : card.keyword ≠ [] := List.length_pos_iff.mp h.keywordLength.1
    have hbehind := head?_append_spaces h.behind.2 (cardSize - card.text.length)
    rw [Card.ofBytes, decodeLossy_cardBytes h.isAscii_text]
    generalize List.replicate (cardSize - card.text.length) ' ' = blanks at hbehind ⊢
    rw [text, List.append_assoc]
    simp only [List.cons_append, List.append_assoc]
    rw [ofText_keyed h.keywordLength.2 h.keywordChars hne h.not_last,
      readValue_quoted h.gap.2 h.value.2 hbehind]

/-- A card with quotes, a slash and an equals sign in its value, two of the quotes at the end, and
with all of these in its comment too. -/
def observer : TextCard where
  keyword := "Observer".toList
  gap := "  ".toList
  value := " O'Brien / x = y''".toList
  behind := " / who's at 'PI' = ''".toList

theorem ofBytes_text_observer :
    observer.text
        = "Observer=   ' O''Brien / x = y''''' / who's at 'PI' = ''".toList
      ∧ observer.IsProper
      ∧ (cardBytes observer.text).length = cardSize
      ∧ Card.ofBytes (cardBytes observer.text)
          = .value "OBSERVER".toList " O'Brien / x = y''".toList := by
  have hproper : observer.IsProper := {
    keywordLength := by decide
    keywordChars := by decide
    not_last := by decide
    gap := by decide
    value := by decide
    behind := by decide
    length := by decide }
  obtain ⟨hlength, hread⟩ := ofBytes_text hproper
  have hupper : observer.keyword.upper = "OBSERVER".toList := by decide
  rw [hupper] at hread
  exact ⟨by decide, hproper, hlength, hread⟩

end TextCard

end WorkflowControl.Fits
