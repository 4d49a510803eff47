import Mathlib.Data.List.Basic
import WorkflowControl.Proofs.LogicalLine

/-!
Hash signs that are written escaped, and what is read of them. A comment begins at the first `#` that
has no backslash right in front of it (`cutComment_cases`). It does not matter whether characters or
bytes are looked at, since no other character has the byte of a backslash at its end
(`getLast?_bytes_eq_iff`).

In an escaped text every `#` has a backslash in front of it, so no comment begins there, and one that
is put behind the text is cut off as a whole. Only where the text ends in a backslash, that one
escapes the `#` of the comment (`withoutComment_escapeHash_append_iff`).
-/

namespace WorkflowControl

namespace Text

/-- The bytes of a text. -/
def bytes (t : Text) : List UInt8 := t.flatMap String.utf8EncodeChar

/-- The byte of a backslash ends no other character. -/
theorem getLast?_utf8EncodeChar_eq_iff (c : Char) :
    (String.utf8EncodeChar c).getLast? = some 0x5C ↔ c = '\\' := by
  constructor
  · intro h
    have hcontinuation : ∀ b : UInt8, b ||| 0x80 ≠ 0x5C := by
      intro b hb
      have hle : 0x80 ≤ (b ||| 0x80).toNat := by
        rw [UInt8.toNat_or]
        exact Nat.right_le_or
      rw [hb] at hle
      exact absurd hle (by decide)
    rcases Char.utf8Size_eq c with hsize | hsize | hsize | hsize
    · rw [String.utf8EncodeChar_eq_singleton hsize] at h
      have hbyte : c.val.toUInt8.toNat = 0x5C := congrArg UInt8.toNat (Option.some.inj h)
      have hle := UInt32.le_iff_toNat_le.mp (Char.utf8Size_eq_one_iff.mp hsize)
      rw [UInt32.toNat_toUInt8, Nat.mod_eq_of_lt (Nat.lt_of_le_of_lt hle (by decide))] at hbyte
      exact Char.toNat_inj.mp hbyte
    · rw [String.utf8EncodeChar_eq_cons_cons hsize] at h
      exact absurd (Option.some.inj h) (hcontinuation _)
    · rw [String.utf8EncodeChar_eq_cons_cons_cons hsize] at h
      exact absurd (Option.some.inj h) (hcontinuation _)
    · rw [String.utf8EncodeChar_eq_cons_cons_cons_cons hsize] at h
      exact absurd (Option.some.inj h) (hcontinuation _)
  · rintro rfl
    decide

theorem getLast?_bytes_eq_iff (t : Text) :
    (bytes t).getLast? = some 0x5C ↔ t.getLast? = some '\\' := by
  rcases List.eq_nil_or_concat t with rfl | ⟨init, c, rfl⟩
  · simp [bytes]
  · have hne : String.utf8EncodeChar c ≠ [] := by
      intro hnil
      have hpos := c.utf8Size_pos
      rw [← String.length_utf8EncodeChar, hnil] at hpos
      exact Nat.lt_irrefl 0 hpos
    have hbytes : bytes (init ++ [c]) = bytes init ++ String.utf8EncodeChar c := by simp [bytes]
    rw [List.concat_eq_append, hbytes, List.getLast?_append_of_ne_nil _ hne, List.getLast?_concat,
      getLast?_utf8EncodeChar_eq_iff, Option.some.injEq]

end Text

namespace LogicalLine

open Text

variable {t : Text}

/-! ## Where a comment begins -/

/-- Whether a comment can begin behind `before`: there is a `#`, and the byte in front of it is no
backslash. -/
def BeginsComment (t before : Text) : Prop :=
  ∃ comment, t = before ++ '#' :: comment ∧ (bytes before).getLast? ≠ some 0x5C

theorem escapedAfter_append_singleton (escaped : Bool) (t : Text) (c : Char) :
    escapedAfter escaped (t ++ [c]) = (c == '\\') := by
  induction t generalizing escaped with
  | nil => rfl
  | cons d t ih => exact ih _

theorem escapedAfter_false_iff : escapedAfter false t = false ↔ (bytes t).getLast? ≠ some 0x5C := by
  rw [Ne, getLast?_bytes_eq_iff]
  constructor
  · intro h hlast
    obtain ⟨init, rfl⟩ := List.getLast?_eq_some_iff.mp hlast
    rw [escapedAfter_append_singleton] at h
    cases h
  · exact fun h => escapedAfter_eq_false h fun _ => rfl

/-- What is cut off, if anything, begins with a `#` that is not escaped. -/
theorem cutComment_eq_self_or (escaped : Bool) (t : Text) : cutComment escaped t = t
    ∨ ∃ comment, t = cutComment escaped t ++ '#' :: comment
      ∧ escapedAfter escaped (cutComment escaped t) = false := by
  induction t generalizing escaped with
  | nil => exact .inl rfl
  | cons c cs ih =>
    rw [cutComment]
    split
    · rename_i hc
      exact .inr ⟨cs, by rw [hc.1, List.nil_append], hc.2⟩
    · rcases ih (c == '\\') with hwhole | ⟨comment, hcs, hescaped⟩
      · exact .inl (by rw [hwhole])
      · exact .inr ⟨comment, by rw [List.cons_append, ← hcs], hescaped⟩

/-- No place where a comment can begin is in front of the one that is taken. -/
theorem BeginsComment.cutComment_prefix {before : Text} (h : BeginsComment t before) :
    cutComment false t <+: before := by
  obtain ⟨comment, rfl, hlast⟩ := h
  rcases cutComment_append false before ('#' :: comment) with hcut | ⟨hcut, -⟩
  · rw [hcut]
    exact cutComment_prefix_self false before
  · have hwhole : cutComment false (before ++ '#' :: comment) = before := by
      rw [hcut, escapedAfter_false_iff.mpr hlast, cutComment, if_pos ⟨rfl, rfl⟩, List.append_nil]
    exact ⟨[], by rw [hwhole, List.append_nil]⟩

/-- A text is cut at the first place where a comment can begin, and nowhere if there is none. -/
theorem cutComment_cases (t : Text) :
    BeginsComment t (cutComment false t)
        ∧ (∀ before, BeginsComment t before → cutComment false t <+: before)
      ∨ cutComment false t = t ∧ ∀ before, ¬ BeginsComment t before := by
  rcases cutComment_eq_self_or false t with hwhole | ⟨comment, ht, hescaped⟩
  · refine .inr ⟨hwhole, fun before hbefore => ?_⟩
    have hlength := hbefore.cutComment_prefix.length_le
    obtain ⟨comment, ht, -⟩ := hbefore
    rw [hwhole, ht, List.length_append, List.length_cons] at hlength
    omega
  · exact .inl ⟨⟨comment, ht, escapedAfter_false_iff.mp hescaped⟩, fun _ h => h.cutComment_prefix⟩

/-! ## Escaped texts -/

/-- Every `#` of an escaped text has a backslash in front of it. -/
theorem not_beginsComment_escapeHash (value before : Text) :
    ¬ BeginsComment (escapeHash value) before := by
  rcases cutComment_cases (escapeHash value) with ⟨⟨comment, ht, -⟩, -⟩ | ⟨-, hnone⟩
  · rw [cutComment_escapeHash] at ht
    have hlength := congrArg List.length ht
    simp at hlength
  · exact hnone before

/-- A backslash at the end of an escaped text escapes the `#` that is put behind it. -/
theorem withoutComment_escapeHash_backslash (init comment : Text) :
    withoutComment (escapeHash (init ++ ['\\']) ++ '#' :: comment)
      = init ++ '#' :: withoutComment comment := by
  have hcut : cutComment true ('#' :: comment) = '#' :: cutComment false comment := by
    rw [cutComment, if_neg (by simp)]
    rfl
  have hend : escapeHash (init ++ ['\\']) = escapeHash init ++ ['\\'] := escapeHash_append _ _
  rw [withoutComment, cutComment_escapeHash_append, escapedAfter_append_singleton, beq_self_eq_true,
    hcut, hend, List.append_assoc, List.singleton_append, unescapeHash_append _ (by simp),
    unescapeHash_escapeHash, unescapeHash, if_pos ⟨rfl, rfl⟩, withoutComment]

/-- No comment begins in an escaped text, which is read as it was before the escaping. With a comment
behind it, too, it is read so, unless it ends in a backslash. -/
theorem withoutComment_escapeHash_append_iff (value : Text) :
    (∀ before, ¬ BeginsComment (escapeHash value) before)
      ∧ withoutComment (escapeHash value) = value
      ∧ ∀ comment, withoutComment (escapeHash value ++ '#' :: comment) = value
          ↔ value.getLast? ≠ some '\\' := by
  refine ⟨not_beginsComment_escapeHash value, withoutComment_escapeHash value,
    fun comment => ⟨fun h hlast => ?_, fun h => ?_⟩⟩
  · obtain ⟨init, rfl⟩ := List.getLast?_eq_some_iff.mp hlast
    rw [withoutComment_escapeHash_backslash] at h
    cases List.append_cancel_left h
  · rw [withoutComment, cutComment_escapeHash_hash h, unescapeHash_escapeHash]

/-- Hash signs at the start, in a row, behind backslashes and behind a character of two bytes, and a
comment with all of these behind it. -/
example : escapeHash "##é#\\#\\\\é".toList = "\\#\\#é\\#\\\\#\\\\é".toList
    ∧ withoutComment "\\#\\#é\\#\\\\#\\\\é#\\#é##\\".toList = "##é#\\#\\\\é".toList := by
  decide

end LogicalLine

end WorkflowControl
