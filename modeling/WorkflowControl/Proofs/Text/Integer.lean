import Mathlib.Data.Nat.Digits.Defs
import WorkflowControl.Proofs.Text.Trim
import WorkflowControl.Text.Integer

/-!
Integers and their numerals. A text denotes an integer if it is ASCII digits, at least one, behind a
sign or none; each digit counts ten times as much as the one behind it. A numeral is read as the
integer that it denotes, if a word holds it (`signed?_eq_some_iff`), and of the numerals of an integer
the one that it is written as is the shortest (`isShortest_ofInt`). Zeros in front of the digits
change neither, so the padded numeral is the one text of its sign and its length that denotes its
integer (`isPadded_zeroPadded`, `IsPadded.unique`).
-/

namespace WorkflowControl.Text

/-- Whether a text is ASCII digits, at least one. -/
def IsDigits (t : Text) : Prop := t ≠ [] ∧ ∀ c ∈ t, isAsciiDigit c = true

instance (t : Text) : Decidable (IsDigits t) := inferInstanceAs (Decidable (_ ∧ _))

/-- The number that a digit stands for. -/
def digitValue (c : Char) : Nat := c.toNat - '0'.toNat

/-- The number that digits stand for, by their places. -/
def numberOf (digits : Text) : Nat := Nat.ofDigits 10 (digits.reverse.map digitValue)

/-- Whether a text denotes an integer: digits with a sign in front of them or without one. -/
inductive Denotes : Text → Int → Prop
  | unsigned {digits : Text} (h : IsDigits digits) : Denotes digits (numberOf digits)
  | plus {digits : Text} (h : IsDigits digits) : Denotes ('+' :: digits) (numberOf digits)
  | minus {digits : Text} (h : IsDigits digits) : Denotes ('-' :: digits) (-(numberOf digits : Int))

/-- Whether no numeral of an integer is shorter than this one. -/
def IsShortest (t : Text) (z : Int) : Prop := Denotes t z ∧ ∀ u, Denotes u z → t.length ≤ u.length

/-- Whether a text is an integer at a width: digits, behind a minus sign if the integer is negative,
that denote it and fill the width, or are as many as its shortest numeral has. -/
structure IsPadded (width : Nat) (z : Int) (t : Text) : Prop where
  form : ∃ digits, IsDigits digits ∧ t = if z < 0 then '-' :: digits else digits
  denotes : Denotes t z
  length : ∃ shortest, IsShortest shortest z ∧ t.length = max width shortest.length

variable {t u digits : Text} {n width : Nat} {z : Int}

/-! ## Digits -/

theorem toNat_of_isAsciiDigit {c : Char} (h : isAsciiDigit c = true) :
    48 ≤ c.toNat ∧ c.toNat ≤ 57 := by
  rw [isAsciiDigit, Bool.and_eq_true, decide_eq_true_eq, decide_eq_true_eq] at h
  exact ⟨UInt32.le_iff_toNat_le.mp h.1, UInt32.le_iff_toNat_le.mp h.2⟩

theorem digitValue_lt {c : Char} (h : isAsciiDigit c = true) : digitValue c < 10 := by
  have hrange := toNat_of_isAsciiDigit h
  show c.toNat - 48 < 10
  omega

/-- A digit is the one for its number. -/
theorem digitChar_digitValue {c : Char} (h : isAsciiDigit c = true) :
    (digitValue c).digitChar = c := by
  have hchar := Nat.toNat_digitChar_of_lt_ten (digitValue_lt h)
  have hrange := toNat_of_isAsciiDigit h
  have hvalue : digitValue c = c.toNat - 48 := rfl
  exact Char.toNat_inj.mp (by omega)

theorem numberOf_eq_foldl (t : Text) :
    numberOf t = t.foldl (fun n c => 10 * n + (c.toNat - '0'.toNat)) 0 := by
  rw [numberOf, Nat.ofDigits_eq_foldr, List.foldr_map, List.foldr_reverse]
  congr 1
  funext n c
  exact Nat.add_comm _ _

theorem digits?_eq_some_iff : digits? t = some n ↔ IsDigits t ∧ numberOf t = n := by
  rw [digits?, numberOf_eq_foldl]
  by_cases h : IsDigits t
  · have hread : (t.isEmpty || !t.all isAsciiDigit) = false := by simpa [IsDigits] using h
    simp [h, hread]
  · have hread : (t.isEmpty || !t.all isAsciiDigit) = true := by
      rw [← Bool.not_eq_false]
      exact fun hread => h (by simpa [IsDigits] using hread)
    simp [h, hread]

theorem numberOf_lt (h : IsDigits t) : numberOf t < 10 ^ t.length := by
  have hlt := Nat.ofDigits_lt_base_pow_length (l := t.reverse.map digitValue) (by decide : 1 < 10)
    (by simpa using fun c hc => digitValue_lt (h.2 c hc))
  rwa [List.length_map, List.length_reverse] at hlt

theorem map_digitChar_digitValue (h : IsDigits t) : (t.map digitValue).map Nat.digitChar = t := by
  rw [List.map_map]
  conv => rhs; rw [← List.map_id t]
  exact List.map_congr_left fun c hc => digitChar_digitValue (h.2 c hc)

/-- Digits are known by their number and how many they are. -/
theorem eq_of_numberOf_eq (ht : IsDigits t) (hu : IsDigits u) (hlength : t.length = u.length)
    (h : numberOf t = numberOf u) : t = u := by
  have hvalues : t.reverse.map digitValue = u.reverse.map digitValue := by
    apply Nat.ofDigits_inj_of_len_eq (by decide : 1 < 10) (by simpa using hlength)
    · simpa using fun c hc => digitValue_lt (ht.2 c hc)
    · simpa using fun c hc => digitValue_lt (hu.2 c hc)
    · exact h
  rw [List.map_reverse, List.map_reverse, List.reverse_inj] at hvalues
  rw [← map_digitChar_digitValue ht, hvalues, map_digitChar_digitValue hu]

theorem numberOf_replicate_append (n : Nat) (t : Text) :
    numberOf (List.replicate n '0' ++ t) = numberOf t := by
  rw [numberOf, List.reverse_append, List.map_append, List.reverse_replicate, List.map_replicate]
  exact Nat.ofDigits_append_replicate_zero _

theorem isDigits_replicate_append (n : Nat) (h : IsDigits t) :
    IsDigits (List.replicate n '0' ++ t) := by
  refine ⟨by simp [h.1], fun c hc => ?_⟩
  rcases List.mem_append.mp hc with hc | hc
  · rw [List.eq_of_mem_replicate hc]
    rfl
  · exact h.2 c hc

theorem isDigits_ofNat (n : Nat) : IsDigits (ofNat n) :=
  ⟨Nat.toDigits_ne_nil, fun _ hc => Nat.isDigit_of_mem_toDigits (by decide) (by decide) hc⟩

theorem numberOf_ofNat (n : Nat) : numberOf (ofNat n) = n := by
  rw [numberOf_eq_foldl, ← Nat.ofDigitChars_eq_foldl]
  exact Nat.ofDigitChars_ten_toDigits

/-- A number has no leading zeros, so no digits for it are fewer. -/
theorem length_ofNat_numberOf_le (h : IsDigits t) : (ofNat (numberOf t)).length ≤ t.length :=
  (Nat.length_toDigits_le_iff (by decide) (List.length_pos_iff.mpr h.1)).mpr (numberOf_lt h)

/-! ## Signs -/

theorem not_isDigits_cons {sign : Char} (h : isAsciiDigit sign = false) : ¬ IsDigits (sign :: t) := by
  intro hdigits
  rw [hdigits.2 sign List.mem_cons_self] at h
  cases h

/-- A text denotes one integer at most. -/
theorem Denotes.unique {z' : Int} (h : Denotes t z) (h' : Denotes t z') : z = z' := by
  cases h with
  | unsigned h =>
    cases h' with
    | unsigned => rfl
    | plus => exact absurd h (not_isDigits_cons (by decide))
    | minus => exact absurd h (not_isDigits_cons (by decide))
  | plus =>
    cases h' with
    | unsigned h' => exact absurd h' (not_isDigits_cons (by decide))
    | plus => rfl
  | minus =>
    cases h' with
    | unsigned h' => exact absurd h' (not_isDigits_cons (by decide))
    | minus => rfl

/-- No character of a numeral is a blank. -/
theorem Denotes.trim_eq (h : Denotes t z) : t.trim = t := by
  have hdigit : ∀ {digits : Text}, IsDigits digits → ∀ c ∈ digits, isBlank c = false := by
    intro digits hdigits c hc
    have hrange := toNat_of_isAsciiDigit (hdigits.2 c hc)
    exact isBlank_eq_false_of_range (by omega)
  apply trim_of_blank_free
  cases h with
  | unsigned h => exact hdigit h
  | plus h => exact List.forall_mem_cons.mpr ⟨by decide, hdigit h⟩
  | minus h => exact List.forall_mem_cons.mpr ⟨by decide, hdigit h⟩

theorem fitsWord_iff : fitsWord z = true ↔ -2 ^ 63 ≤ z ∧ z < 2 ^ 63 := by
  rw [fitsWord, Bool.and_eq_true, decide_eq_true_eq, decide_eq_true_eq]
  rfl

/-- Digits behind a sign are read as the integer that the sign makes of their number. -/
theorem map_digits?_eq_some_iff {signed : Int → Int} :
    (digits? t >>= fun n => pure (n : Int) : Option Int).map signed = some z
      ↔ IsDigits t ∧ signed (numberOf t) = z := by
  constructor
  · intro h
    obtain ⟨m, hm, rfl⟩ := Option.map_eq_some_iff.mp h
    obtain ⟨n, hn, hm⟩ := Option.bind_eq_some_iff.mp hm
    obtain rfl := Option.some.inj hm
    obtain ⟨hdigits, rfl⟩ := digits?_eq_some_iff.mp hn
    exact ⟨hdigits, rfl⟩
  · rintro ⟨hdigits, rfl⟩
    rw [digits?_eq_some_iff.mpr ⟨hdigits, rfl⟩]
    rfl

/-- A numeral is read as the integer that it denotes, if a word of 64 bits holds it. -/
theorem signed?_eq_some_iff :
    signed? t = some z ↔ Denotes t z ∧ -2 ^ 63 ≤ z ∧ z < 2 ^ 63 := by
  unfold signed?
  rw [Option.filter_eq_some_iff, fitsWord_iff]
  refine and_congr_left fun _ => ?_
  constructor
  · intro h
    split at h
    · obtain ⟨hdigits, rfl⟩ := map_digits?_eq_some_iff.mp h
      exact .minus hdigits
    · obtain ⟨hdigits, rfl⟩ := map_digits?_eq_some_iff.mp h
      exact .plus hdigits
    · obtain ⟨hdigits, rfl⟩ := map_digits?_eq_some_iff.mp h
      exact .unsigned hdigits
  · intro h
    cases h with
    | unsigned h =>
      split
      · exact absurd h (not_isDigits_cons (by decide))
      · exact absurd h (not_isDigits_cons (by decide))
      · exact map_digits?_eq_some_iff.mpr ⟨h, rfl⟩
    | plus h => exact map_digits?_eq_some_iff.mpr ⟨h, rfl⟩
    | minus h => exact map_digits?_eq_some_iff.mpr ⟨h, rfl⟩

/-! ## The written form -/

/-- The digits of an integer, behind a minus sign if it is negative. -/
theorem ofInt_eq (z : Int) :
    ofInt z = if z < 0 then '-' :: ofNat z.natAbs else ofNat z.natAbs := by
  cases z with
  | ofNat n => rw [if_neg (by simp), ofInt, Int.ofNat_eq_natCast, Int.natAbs_natCast]
  | negSucc n => rw [if_pos (by simp), ofInt, Int.natAbs_negSucc]

/-- Digits with the sign of an integer denote it if and only if they are its magnitude. -/
theorem denotes_iff_natAbs (hdigits : IsDigits digits) :
    Denotes (if z < 0 then '-' :: digits else digits) z ↔ numberOf digits = z.natAbs := by
  split
  · constructor
    · intro h
      have hz := h.unique (.minus hdigits)
      omega
    · intro h
      have hz : z = -(numberOf digits : Int) := by omega
      rw [hz]
      exact .minus hdigits
  · constructor
    · intro h
      have hz := h.unique (.unsigned hdigits)
      omega
    · intro h
      have hz : z = (numberOf digits : Int) := by omega
      rw [hz]
      exact .unsigned hdigits

theorem isShortest_ofInt (z : Int) : IsShortest (ofInt z) z := by
  rw [ofInt_eq]
  refine ⟨(denotes_iff_natAbs (isDigits_ofNat _)).mpr (numberOf_ofNat _), fun u hu => ?_⟩
  cases hu with
  | @unsigned digits h =>
    have hle := length_ofNat_numberOf_le h
    rw [if_neg (by omega), Int.natAbs_natCast]
    exact hle
  | @plus digits h =>
    have hle := length_ofNat_numberOf_le h
    rw [if_neg (by omega), Int.natAbs_natCast, List.length_cons]
    omega
  | @minus digits h =>
    have hle := length_ofNat_numberOf_le h
    rw [Int.natAbs_neg, Int.natAbs_natCast, List.length_cons]
    split
    · rw [List.length_cons]
      omega
    · omega

theorem zeroPadded_eq (width : Nat) (z : Int) : ∃ zeros : Nat,
    zeroPadded width z = (if z < 0 then '-' :: (List.replicate zeros '0' ++ ofNat z.natAbs)
        else List.replicate zeros '0' ++ ofNat z.natAbs)
      ∧ zeros + (ofInt z).length = max width (ofInt z).length := by
  rw [zeroPadded, ofInt_eq]
  by_cases hz : z < 0
  · refine ⟨width - 1 - (ofNat z.natAbs).length, by simp [hz], ?_⟩
    rw [if_pos hz, List.length_cons]
    omega
  · refine ⟨width - (ofNat z.natAbs).length, by simp [hz], ?_⟩
    rw [if_neg hz]
    omega

/-- A padded integer is the integer at the width. -/
theorem isPadded_zeroPadded (width : Nat) (z : Int) : IsPadded width z (zeroPadded width z) := by
  obtain ⟨zeros, heq, hwidth⟩ := zeroPadded_eq width z
  have hdigits := isDigits_replicate_append zeros (isDigits_ofNat z.natAbs)
  have hnumber : numberOf (List.replicate zeros '0' ++ ofNat z.natAbs) = z.natAbs := by
    rw [numberOf_replicate_append, numberOf_ofNat]
  refine ⟨⟨_, hdigits, heq⟩, ?_, ofInt z, isShortest_ofInt z, ?_⟩
  · rw [heq]
    exact (denotes_iff_natAbs hdigits).mpr hnumber
  · rw [heq, ← hwidth, ofInt_eq]
    split
    · simp; omega
    · simp

theorem IsShortest.length_eq (ht : IsShortest t z) (hu : IsShortest u z) : t.length = u.length :=
  Nat.le_antisymm (ht.2 u hu.1) (hu.2 t ht.1)

/-- An integer at a width has digits and at most a minus sign. -/
theorem IsPadded.mem {c : Char} (h : IsPadded width z t) (hc : c ∈ t) :
    c = '-' ∨ isAsciiDigit c = true := by
  obtain ⟨digits, hdigits, rfl⟩ := h.form
  split at hc
  · rcases List.mem_cons.mp hc with hsign | hc
    · exact .inl hsign
    · exact .inr (hdigits.2 c hc)
  · exact .inr (hdigits.2 c hc)

/-- There is one text that is an integer at a width. -/
theorem IsPadded.unique (ht : IsPadded width z t) (hu : IsPadded width z u) : t = u := by
  obtain ⟨⟨digits, hdigits, rfl⟩, hdenotes, shortest, hshortest, hlength⟩ := ht
  obtain ⟨⟨digits', hdigits', rfl⟩, hdenotes', shortest', hshortest', hlength'⟩ := hu
  have hnumber : numberOf digits = numberOf digits' := by
    rw [(denotes_iff_natAbs hdigits).mp hdenotes, (denotes_iff_natAbs hdigits').mp hdenotes']
  have hsame := hlength.trans ((congrArg (max width) (hshortest.length_eq hshortest')).trans
    hlength'.symm)
  split at hsame
  · rw [eq_of_numberOf_eq hdigits hdigits' (by simpa using hsame) hnumber]
  · rw [eq_of_numberOf_eq hdigits hdigits' hsame hnumber]

end WorkflowControl.Text
