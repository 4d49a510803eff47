import WorkflowControl.Proofs.Text.Fold
import WorkflowControl.Proofs.Text.Integer
import WorkflowControl.Proofs.Text.Trim
import WorkflowControl.Substitution.Width
import WorkflowControl.Text.Utf8

/-!
Texts of ASCII. On them the case that tokens are compared without and the case that names are looked
up without are the same (`alike_iff_lower_eq`), so tokens that are alike name the same variable.
They ask for the same width, since a numeral has no case (`eq_of_width`). A character of them is a
byte, so they are read as they are written (`decodeLossy_of_ascii`) and cut by counting characters
(`splitAtByte_of_ascii`).
-/

namespace WorkflowControl

namespace Text

/-- Whether all characters of a text are in ASCII. -/
def IsAscii (t : Text) : Prop := ∀ c ∈ t, c.toNat < 128

instance (t : Text) : Decidable (IsAscii t) := inferInstanceAs (Decidable (∀ c ∈ t, _))

theorem IsAscii.subset {t u : Text} (h : IsAscii t) (hsubset : u ⊆ t) : IsAscii u :=
  fun c hc => h c (hsubset hc)

theorem IsAscii.upTo {t : Text} (h : IsAscii t) (sign : Char) : IsAscii (t.upTo sign) :=
  h.subset (List.takeWhile_subset _)

theorem isAscii_append {t u : Text} : IsAscii (t ++ u) ↔ IsAscii t ∧ IsAscii u :=
  List.forall_mem_append

theorem isAscii_cons {c : Char} {t : Text} : IsAscii (c :: t) ↔ c.toNat < 128 ∧ IsAscii t :=
  List.forall_mem_cons

/-! ## Bytes -/

theorem utf8Size_of_ascii {c : Char} (h : c.toNat < 128) : c.utf8Size = 1 := by
  rw [Char.utf8Size_eq_one_iff, UInt32.le_iff_toNat_le]
  exact Nat.le_of_lt_succ h

/-- A byte below 128 is a character of its own. -/
theorem piecesFrom_cons_of_ascii {b : UInt8} (h : b < 0x80) (bs : List UInt8) :
    piecesFrom 0 (b :: bs) = some (Char.ofNat b.toNat) :: piecesFrom 0 bs := by
  rw [piecesFrom, firstPiece, if_pos h]
  rfl

theorem decodeLossy_of_ascii {t : Text} (h : IsAscii t) :
    decodeLossy (t.map fun c => c.toNat.toUInt8) = t := by
  induction t with
  | nil => rfl
  | cons c t ih =>
    obtain ⟨hc, ht⟩ := isAscii_cons.mp h
    have hbyte : c.toNat.toUInt8.toNat = c.toNat := by
      simp
      omega
    have hless : c.toNat.toUInt8 < 0x80 := by
      rw [UInt8.lt_iff_toNat_lt, hbyte]
      exact hc
    have hrest := ih ht
    rw [decodeLossy, pieces] at hrest ⊢
    rw [List.map_cons, piecesFrom_cons_of_ascii hless, List.map_cons, hrest, hbyte,
      Char.ofNat_toNat]
    rfl

theorem splitAtByte_of_ascii {t : Text} (h : IsAscii t) (rest : Text) :
    splitAtByte t.length (t ++ rest) = some (t, rest) := by
  induction t with
  | nil => rw [List.length_nil, List.nil_append, splitAtByte]
  | cons c t ih =>
    obtain ⟨hc, ht⟩ := isAscii_cons.mp h
    have hsize := utf8Size_of_ascii hc
    rw [List.length_cons, List.cons_append, splitAtByte, hsize, if_pos (by omega),
      Nat.add_sub_cancel, ih ht]
    rfl

/-! ## Lower case -/

theorem lowerChar_of_ascii {c : Char} (h : c.toNat < 128) : lowerChar c = [foldChar c] := by
  rw [lowerChar, foldChar, if_pos h, if_pos h]

/-- In ASCII the lower case of a text is its folded form. -/
theorem lower_eq_map {t : Text} (h : IsAscii t) : t.lower = t.map foldChar := by
  have hfrom : ∀ afterCased, lowerFrom afterCased t = t.map foldChar := by
    induction t with
    | nil => exact fun _ => rfl
    | cons c t ih =>
      intro afterCased
      have hc : c.toNat < 128 := h c List.mem_cons_self
      have hsigma : c ≠ 'Σ' := by
        intro heq
        rw [heq] at hc
        exact absurd hc (by decide)
      rw [lowerFrom, if_neg hsigma, lowerChar_of_ascii hc, List.map_cons,
        ih fun d hd => h d (List.mem_cons_of_mem c hd)]
      rfl
  exact hfrom false

/-- In ASCII two texts differ in case at most if and only if their lower case is the same. -/
theorem alike_iff_lower_eq {t u : Text} (ht : IsAscii t) (hu : IsAscii u) :
    Alike t u ↔ t.lower = u.lower := by
  rw [lower_eq_map ht, lower_eq_map hu]
  rfl

/-! ## Numerals -/

/-- A text without letters is alike only to itself. -/
theorem eq_of_alike_of_caseless {t u : Text} (ht : ∀ c ∈ t, IsCaseless c) (h : Alike t u) :
    u = t := by
  induction t generalizing u with
  | nil => exact List.length_eq_zero_iff.mp h.length_eq.symm
  | cons c t ih =>
    cases u with
    | nil => cases h.length_eq
    | cons d u =>
      obtain ⟨hfold, htail⟩ := alike_cons.mp h
      have hd : d = c := eq_of_foldChar_eq (ht c List.mem_cons_self) hfold.symm
      rw [hd, ih (fun e he => ht e (List.mem_cons_of_mem c he)) htail]

theorem isCaseless_of_isAsciiDigit {c : Char} (h : isAsciiDigit c = true) : IsCaseless c := by
  have hrange := toNat_of_isAsciiDigit h
  unfold IsCaseless
  omega

theorem isCaseless_of_isBlank {c : Char} (hascii : c.toNat < 128) (h : isBlank c = true) :
    IsCaseless c := by
  simp only [isBlank, Bool.or_eq_true, Bool.and_eq_true, beq_iff_eq, decide_eq_true_eq] at h
  unfold IsCaseless
  omega

/-- A numeral has no letters. -/
theorem isCaseless_of_unsigned? {bits n : Nat} {t : Text} (h : unsigned? bits t = some n) :
    ∀ c ∈ t, IsCaseless c := by
  have hcaseless : ∀ {digits : Text}, digits? digits = some n → ∀ c ∈ digits, IsCaseless c :=
    fun hdigits c hc => isCaseless_of_isAsciiDigit ((digits?_eq_some_iff.mp hdigits).1.2 c hc)
  unfold unsigned? at h
  obtain ⟨hmagnitude, -⟩ := Option.filter_eq_some_iff.mp h
  split at hmagnitude
  · exact List.forall_mem_cons.mpr ⟨by decide, hcaseless hmagnitude⟩
  · exact hcaseless hmagnitude

/-! ## What stands before and behind a sign -/

theorem upTo_eq_self {sign : Char} {t : Text} (h : sign ∉ t) : t.upTo sign = t := by
  induction t with
  | nil => rfl
  | cons c t ih =>
    have hc : c ≠ sign := Ne.symm (List.ne_of_not_mem_cons h)
    rw [Text.upTo, List.takeWhile_cons, if_pos (by simpa using hc)]
    exact congrArg (c :: ·) (ih (List.not_mem_of_not_mem_cons h))

theorem after?_eq_none {sign : Char} {t : Text} (h : sign ∉ t) : t.after? sign = none := by
  induction t with
  | nil => rfl
  | cons c t ih =>
    rw [Text.after?, if_neg (Ne.symm (List.ne_of_not_mem_cons h))]
    exact ih (List.not_mem_of_not_mem_cons h)

/-- What stands behind the first sign is alike. -/
theorem Alike.after? {t u : Text} {sign : Char} (hsign : IsCaseless sign) (h : Alike t u) :
    t.after? sign = none ∧ u.after? sign = none
      ∨ ∃ behind behind', t.after? sign = some behind ∧ u.after? sign = some behind'
        ∧ Alike behind behind' := by
  induction t generalizing u with
  | nil =>
    obtain rfl : u = [] := List.length_eq_zero_iff.mp h.length_eq.symm
    exact .inl ⟨rfl, rfl⟩
  | cons c t ih =>
    cases u with
    | nil => cases h.length_eq
    | cons d u =>
      obtain ⟨hfold, htail⟩ := alike_cons.mp h
      unfold Text.after?
      by_cases hc : c = sign
      · have hd : d = sign := eq_of_foldChar_eq hsign (hc ▸ hfold.symm)
        rw [if_pos hc, if_pos hd]
        exact .inr ⟨t, u, rfl, rfl, htail⟩
      · have hd : d ≠ sign := fun hd => hc (eq_of_foldChar_eq hsign (hd ▸ hfold))
        rw [if_neg hc, if_neg hd]
        exact ih htail

theorem after?_subset {sign : Char} {t behind : Text} (h : t.after? sign = some behind) :
    behind ⊆ t := by
  induction t with
  | nil => cases h
  | cons c t ih =>
    rw [Text.after?] at h
    split at h
    · obtain rfl := Option.some.inj h
      exact List.subset_cons_self c t
    · exact fun d hd => List.mem_cons_of_mem c (ih h hd)

end Text

open Text

namespace Token

theorem nameAndWidth_of_not_mem {content : Text} (h : ':' ∉ content) :
    nameAndWidth content = (content, none) := by
  rw [nameAndWidth, upTo_eq_self h, after?_eq_none h]
  rfl

theorem not_mem_of_width_eq_none {content : Text} (h : (nameAndWidth content).2 = none) :
    ':' ∉ content := by
  have hbehind : content.after? ':' = none := Option.map_eq_none_iff.mp h
  clear h
  induction content with
  | nil => exact List.not_mem_nil
  | cons c cs ih =>
    rw [Text.after?] at hbehind
    split at hbehind
    · cases hbehind
    · rename_i hc
      exact List.not_mem_cons_of_ne_of_not_mem (Ne.symm hc) (ih hbehind)

end Token

namespace Substitution

theorem unsigned?_of_width {content w : Text} {n : Nat} (h : width content w = .ok n) :
    unsigned? 16 w.trim = some n := by
  unfold width at h
  split at h
  · rename_i found hfound
    obtain rfl := Except.ok.inj h
    exact hfound
  · cases h

/-- Only one spelling of a width is alike to it. -/
theorem eq_of_width {content w other : Text} {n : Nat} (hw : IsAscii w)
    (h : width content w = .ok n) (halike : Alike w other) : other = w := by
  refine eq_of_alike_of_caseless (fun c hc => ?_) halike
  obtain ⟨a, b, heq, ha, hb⟩ := eq_blanks_trim_blanks w
  have hascii := hw c hc
  rw [heq] at hc
  rcases List.mem_append.mp hc with hc | hc
  · rcases List.mem_append.mp hc with hc | hc
    · exact isCaseless_of_isBlank hascii (ha c hc)
    · exact isCaseless_of_unsigned? (unsigned?_of_width h) c hc
  · exact isCaseless_of_isBlank hascii (hb c hc)

theorem width_of_unsigned? {w : Text} {n : Nat} (h : unsigned? 16 w.trim = some n) (content : Text) :
    width content w = .ok n := by
  rw [width, h]

end Substitution

end WorkflowControl
