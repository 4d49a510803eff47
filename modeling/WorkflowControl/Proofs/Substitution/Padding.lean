import WorkflowControl.Proofs.Text.Integer
import WorkflowControl.Proofs.Text.Trim
import WorkflowControl.Substitution.Width

/-!
Padded numbers. A value is padded if it is a numeral of a signed word, blanks around it, and the
result is the integer at the width: which of the numerals of the integer the value is, with a plus
sign, zeros in front or blanks around it, does not show. So a padded number can be padded again in
place of the value.
-/

namespace WorkflowControl.Substitution

open Text

variable {width : Nat} {value t : Text}

theorem padded_eq_ok_iff : padded width value = .ok t
    ↔ ∃ z, Denotes value.trim z ∧ (-2 ^ 63 ≤ z ∧ z < 2 ^ 63) ∧ IsPadded width z t := by
  constructor
  · intro h
    unfold padded at h
    split at h
    · rename_i z hz
      obtain rfl := Except.ok.inj h
      obtain ⟨hdenotes, hrange⟩ := signed?_eq_some_iff.mp hz
      exact ⟨z, hdenotes, hrange, isPadded_zeroPadded width z⟩
    · cases h
  · rintro ⟨z, hdenotes, hrange, hpadded⟩
    rw [padded, signed?_eq_some_iff.mpr ⟨hdenotes, hrange⟩,
      hpadded.unique (isPadded_zeroPadded width z)]

theorem mem_padded {c : Char} (h : padded width value = .ok t) (hc : c ∈ t) :
    c = '-' ∨ isAsciiDigit c = true := by
  obtain ⟨z, -, -, hpadded⟩ := padded_eq_ok_iff.mp h
  exact hpadded.mem hc

theorem dollar_not_mem_padded (h : padded width value = .ok t) : '$' ∉ t := by
  intro hmem
  rcases mem_padded h hmem with hsign | hdigit
  · cases hsign
  · cases hdigit

/-- Values that denote the same integer of a word are padded alike. -/
theorem padded_congr {other : Text} {z : Int} (h : Denotes value.trim z)
    (hother : Denotes other.trim z) (hrange : -2 ^ 63 ≤ z ∧ z < 2 ^ 63) (width : Nat) :
    padded width value = padded width other := by
  rw [padded, padded, signed?_eq_some_iff.mpr ⟨h, hrange⟩, signed?_eq_some_iff.mpr ⟨hother, hrange⟩]

/-- A value is padded if and only if it is a numeral of a signed word, blanks around it. The result is
the integer that the value denotes, at the width, and it is padded again, to any width, as the value
is. -/
theorem exists_padded_iff_and_isPadded (width : Nat) (value : Text) :
    ((∃ t, padded width value = .ok t) ↔ ∃ z, Denotes value.trim z ∧ -2 ^ 63 ≤ z ∧ z < 2 ^ 63)
      ∧ ∀ t, padded width value = .ok t →
          (∃ z, Denotes value.trim z ∧ IsPadded width z t)
            ∧ ∀ width', padded width' t = padded width' value := by
  refine ⟨⟨?_, ?_⟩, fun t ht => ?_⟩
  · rintro ⟨t, ht⟩
    obtain ⟨z, hdenotes, hrange, -⟩ := padded_eq_ok_iff.mp ht
    exact ⟨z, hdenotes, hrange⟩
  · rintro ⟨z, hdenotes, hrange⟩
    exact ⟨_, padded_eq_ok_iff.mpr ⟨z, hdenotes, hrange, isPadded_zeroPadded width z⟩⟩
  · obtain ⟨z, hdenotes, hrange, hpadded⟩ := padded_eq_ok_iff.mp ht
    refine ⟨⟨z, hdenotes, hpadded⟩, padded_congr ?_ hdenotes hrange⟩
    rw [hpadded.denotes.trim_eq]
    exact hpadded.denotes

/-- A numeral with a sign, zeros and blanks that is wider than the number needs. -/
theorem exists_padded_iff_and_isPadded_signed :
    padded 5 " -007\t".toList = .ok "-0007".toList
      ∧ IsPadded 5 (-7) "-0007".toList
      ∧ ∀ width', padded width' "-0007".toList = padded width' " -007\t".toList := by
  have hpadded : padded 5 " -007\t".toList = .ok "-0007".toList := by decide
  obtain ⟨⟨z, hdenotes, hz⟩, hagain⟩ := (exists_padded_iff_and_isPadded 5 _).2 _ hpadded
  have hseven : Denotes (trim " -007\t".toList) (-7) :=
    .minus (by decide : IsDigits ['0', '0', '7'])
  rw [hdenotes.unique hseven] at hz
  exact ⟨hpadded, hz, hagain⟩

end WorkflowControl.Substitution
