import WorkflowControl.Text.Case

/-!
What lowering does to a text. A lowered text is its own lowered form (`lower_lower`), since no small
letter is a capital of the table. Blanks and signs stay where they are and no others come up
(`isBlank_of_mem_lower`, `count_lower`), so what a line is cut at is in the lowered text as often
as in the text.
-/

namespace WorkflowControl.Text

/-! ## The table -/

/-- Whether a run has the characters of one parity only. -/
def CaseRun.oneParity (r : CaseRun) : Bool := Nat.beq (r.step % 2) 0 || Nat.beq r.first r.last

/-- Whether no image under `r` has one under `q`: the characters lie apart or differ in parity. -/
def CaseRun.avoids (r q : CaseRun) : Bool :=
  Nat.blt (r.target + (r.last - r.first)) q.first || Nat.blt q.last r.target
    || (r.oneParity && q.oneParity && !Nat.beq (r.target % 2) (q.first % 2))

theorem CaseRun.parity_of_image {r : CaseRun} {n m : Nat} (h : r.image? n = some m)
    (hr : r.oneParity = true) : n % 2 = r.first % 2 ∧ m % 2 = r.target % 2 := by
  rw [image?] at h
  split at h
  · rename_i hin
    obtain ⟨hfirst, hlast, hmod⟩ := hin
    obtain rfl := Option.some.inj h
    have heven : (n - r.first) % 2 = 0 := by
      simp only [oneParity, Bool.or_eq_true, Nat.beq_eq] at hr
      rcases hr with hstep | hone
      · have hdvd : 2 ∣ n - r.first :=
          Nat.dvd_trans (Nat.dvd_of_mod_eq_zero hstep) (Nat.dvd_of_mod_eq_zero hmod)
        omega
      · omega
    omega
  · cases h

/-- What a run maps is a multiple of its step behind the first character. -/
theorem CaseRun.exists_step_of_image {r : CaseRun} {n m : Nat} (h : r.image? n = some m) :
    ∃ k ∈ List.range ((r.last - r.first) / r.step + 1),
      n = r.first + k * r.step ∧ m = r.target + k * r.step := by
  rw [image?] at h
  split at h
  · rename_i hin
    obtain ⟨hfirst, hlast, hmod⟩ := hin
    obtain rfl := Option.some.inj h
    have hk : (n - r.first) / r.step * r.step = n - r.first :=
      Nat.div_mul_cancel (Nat.dvd_of_mod_eq_zero hmod)
    have hle : (n - r.first) / r.step ≤ (r.last - r.first) / r.step :=
      Nat.div_le_div_right (by omega)
    refine ⟨(n - r.first) / r.step, List.mem_range.mpr (Nat.lt_succ_of_le hle), ?_, ?_⟩
    · rw [hk]
      omega
    · rw [hk]
  · cases h

theorem CaseRun.image?_of_avoids {r q : CaseRun} (havoids : r.avoids q = true) {n m : Nat}
    (h : r.image? n = some m) : q.image? m = none := by
  cases hq : q.image? m with
  | none => rfl
  | some i =>
    simp only [avoids, Bool.or_eq_true, Bool.and_eq_true, Nat.blt_eq, Bool.not_eq_true',
      Bool.eq_false_iff, ne_eq, Nat.beq_eq] at havoids
    rcases havoids with (hbehind | hbefore) | ⟨⟨hr, hqp⟩, hparity⟩
    · rw [image?] at h hq
      split at h
      · split at hq
        · obtain rfl := Option.some.inj h
          omega
        · cases hq
      · cases h
    · rw [image?] at h hq
      split at h
      · split at hq
        · obtain rfl := Option.some.inj h
          omega
        · cases hq
      · cases h
    · have himage := (parity_of_image h hr).2
      have hsource := (parity_of_image hq hqp).1
      omega

theorem lowercaseRuns_avoid :
    ∀ r ∈ lowercaseRuns, ∀ q ∈ lowercaseRuns, r.avoids q = true := by
  have hall : (lowercaseRuns.all fun r => lowercaseRuns.all fun q => r.avoids q) = true := by
    decide +kernel
  simpa using hall

/-- The images of the table are characters, behind the signs of ASCII, and none of them is a blank
or the dotted capital I. -/
theorem lowercaseRuns_images :
    ∀ r ∈ lowercaseRuns, ∀ k ∈ List.range ((r.last - r.first) / r.step + 1),
      let n := r.target + k * r.step
      n.isValidChar ∧ 97 ≤ n ∧ n ≠ 0x130 ∧ isBlank (Char.ofNat n) = false := by
  decide +kernel

/-! ## Characters -/

/-- A character that lowering leaves as it is wherever it stands. -/
def IsLower (c : Char) : Prop := lowerChar c = [c] ∧ c ≠ 'Σ'

instance (c : Char) : Decidable (IsLower c) := inferInstanceAs (Decidable (_ ∧ _))

/-- A character of ASCII before the small letters that is no capital: a blank, a digit or a sign. -/
def IsSign (c : Char) : Prop := c.toNat < 97 ∧ ¬ (65 ≤ c.toNat ∧ c.toNat ≤ 90)

instance (c : Char) : Decidable (IsSign c) := inferInstanceAs (Decidable (_ ∧ _))

/-- What comes out of a character that is not left as it is. -/
structure IsLowered (c : Char) : Prop where
  lower : IsLower c
  behind_signs : 97 ≤ c.toNat
  not_blank : isBlank c = false

instance (c : Char) : Decidable (IsLowered c) :=
  decidable_of_iff (IsLower c ∧ 97 ≤ c.toNat ∧ isBlank c = false)
    ⟨fun ⟨h, h', h''⟩ => ⟨h, h', h''⟩, fun ⟨h, h', h''⟩ => ⟨h, h', h''⟩⟩

theorem le_iff_toNat {a b : Char} : a ≤ b ↔ a.toNat ≤ b.toNat := UInt32.le_iff_toNat_le

theorem toNat_ofNat {n : Nat} (h : n.isValidChar) : (Char.ofNat n).toNat = n := by
  rw [Char.ofNat, dif_pos h]
  rfl

theorem isLowered_image {n m : Nat} (h : imageIn? lowercaseRuns n = some m) :
    IsLowered (Char.ofNat m) := by
  obtain ⟨r, hr, himage⟩ := List.exists_of_findSome?_eq_some h
  have hnone : imageIn? lowercaseRuns m = none := by
    refine List.findSome?_eq_none_iff.mpr fun q hq => ?_
    exact CaseRun.image?_of_avoids (lowercaseRuns_avoid r hr q hq) himage
  obtain ⟨hvalid, hbehind, hdotted, hblank⟩ : m.isValidChar ∧ 97 ≤ m ∧ m ≠ 0x130
      ∧ isBlank (Char.ofNat m) = false := by
    obtain ⟨k, hk, -, rfl⟩ := CaseRun.exists_step_of_image himage
    exact lowercaseRuns_images r hr k hk
  have hnat : (Char.ofNat m).toNat = m := toNat_ofNat hvalid
  refine ⟨⟨?_, ?_⟩, by rw [hnat]; exact hbehind, hblank⟩
  · rw [lowerChar, hnat]
    split
    · have hcapital : ¬ Char.ofNat m ≤ 'Z' := by
        rw [le_iff_toNat, hnat]
        show ¬ m ≤ 90
        omega
      rw [asciiLower, if_neg fun hc => hcapital hc.2]
    · simp only [mapped, hnat, hnone]
  · intro hsigma
    have hm : m = 0x3A3 := by rw [← hnat, hsigma]; rfl
    rw [hm] at hnone
    exact absurd hnone (by decide +kernel)

theorem isLowered_capital : ∀ n ∈ List.range' 65 26, ¬ IsSign (Char.ofNat n)
    ∧ lowerChar (Char.ofNat n) ≠ [] ∧ ∀ d ∈ lowerChar (Char.ofNat n), IsLowered d := by
  decide +kernel

/-- A character is left as it is, or it is no sign and other characters come in its place. -/
theorem lowerChar_cases (c : Char) :
    lowerChar c = [c] ∨ ¬ IsSign c ∧ lowerChar c ≠ [] ∧ ∀ d ∈ lowerChar c, IsLowered d := by
  by_cases hascii : c.toNat < 128
  · by_cases hcapital : 'A' ≤ c ∧ c ≤ 'Z'
    · right
      rw [le_iff_toNat, le_iff_toNat] at hcapital
      have hrange : 65 ≤ c.toNat ∧ c.toNat ≤ 90 := hcapital
      have hmem : c.toNat ∈ List.range' 65 26 := by
        rw [List.mem_range'_1]
        omega
      have h := isLowered_capital c.toNat hmem
      rwa [Char.ofNat_toNat] at h
    · left
      rw [lowerChar, if_pos hascii, asciiLower, if_neg hcapital]
  · have hsign : ¬ IsSign c := fun h => hascii (by have := h.1; omega)
    -- The capital I with a dot is the one character with a lower case of two characters.
    by_cases hdotted : c.toNat = 0x130
    · right
      have hlower : lowerChar c = ['i', Char.ofNat 0x307] := by
        simp only [lowerChar, if_neg hascii, if_pos hdotted]
      rw [hlower]
      exact ⟨hsign, by simp, by decide +kernel⟩
    · cases himage : imageIn? lowercaseRuns c.toNat with
      | none =>
        left
        simp only [lowerChar, if_neg hascii, if_neg hdotted, mapped, himage]
      | some m =>
        right
        have hlower : lowerChar c = [Char.ofNat m] := by
          simp only [lowerChar, if_neg hascii, if_neg hdotted, mapped, himage]
        rw [hlower]
        refine ⟨hsign, by simp, fun d hd => ?_⟩
        rw [List.mem_singleton.mp hd]
        exact isLowered_image himage

/-! ## Texts -/

/-- What `lowerFrom` makes of one character, given what stands around it. -/
theorem lowerFrom_cons_cases (afterCased : Bool) (c : Char) (cs : Text) :
    ∃ piece later, lowerFrom afterCased (c :: cs) = piece ++ lowerFrom later cs
      ∧ (piece = [c] ∧ IsLower c ∨ ¬ IsSign c ∧ piece ≠ [] ∧ ∀ d ∈ piece, IsLowered d) := by
  refine ⟨_, _, rfl, ?_⟩
  by_cases hsigma : c = 'Σ'
  · right
    rw [if_pos hsigma, hsigma]
    split <;> decide +kernel
  · rw [if_neg hsigma]
    rcases lowerChar_cases c with hsame | hmoved
    · exact .inl ⟨hsame, hsame, hsigma⟩
    · exact .inr hmoved

theorem isLower_of_mem_lowerFrom {afterCased : Bool} {t : Text} :
    ∀ d ∈ lowerFrom afterCased t, IsLower d := by
  induction t generalizing afterCased with
  | nil =>
    intro d hd
    cases hd
  | cons c cs ih =>
    obtain ⟨piece, later, heq, hpiece⟩ := lowerFrom_cons_cases afterCased c cs
    rw [heq]
    intro d hd
    rcases List.mem_append.mp hd with hd | hd
    · rcases hpiece with ⟨rfl, hc⟩ | ⟨-, -, hall⟩
      · rwa [List.mem_singleton.mp hd]
      · exact (hall d hd).lower
    · exact ih d hd

theorem lowerFrom_of_isLower {t : Text} (h : ∀ c ∈ t, IsLower c) (afterCased : Bool) :
    lowerFrom afterCased t = t := by
  induction t generalizing afterCased with
  | nil => rfl
  | cons c cs ih =>
    obtain ⟨hlower, hsigma⟩ := h c (by simp)
    rw [lowerFrom, if_neg hsigma, hlower, ih (fun d hd => h d (List.mem_cons_of_mem _ hd))]
    rfl

theorem lower_lower (t : Text) : lower (lower t) = lower t :=
  lowerFrom_of_isLower isLower_of_mem_lowerFrom false

theorem isBlank_of_mem_lowerFrom {afterCased : Bool} {t : Text} (h : ∀ c ∈ t, isBlank c = false) :
    ∀ d ∈ lowerFrom afterCased t, isBlank d = false := by
  induction t generalizing afterCased with
  | nil =>
    intro d hd
    cases hd
  | cons c cs ih =>
    obtain ⟨piece, later, heq, hpiece⟩ := lowerFrom_cons_cases afterCased c cs
    rw [heq]
    intro d hd
    rcases List.mem_append.mp hd with hd | hd
    · rcases hpiece with ⟨rfl, -⟩ | ⟨-, -, hall⟩
      · rw [List.mem_singleton.mp hd]
        exact h c (by simp)
      · exact (hall d hd).not_blank
    · exact ih (fun c hc => h c (List.mem_cons_of_mem _ hc)) d hd

theorem isBlank_of_mem_lower {t : Text} (h : ∀ c ∈ t, isBlank c = false) :
    ∀ d ∈ lower t, isBlank d = false :=
  isBlank_of_mem_lowerFrom h

theorem lower_ne_nil {t : Text} (h : t ≠ []) : lower t ≠ [] := by
  cases t with
  | nil => exact absurd rfl h
  | cons c cs =>
    obtain ⟨piece, later, heq, hpiece⟩ := lowerFrom_cons_cases false c cs
    rw [lower, heq]
    rcases hpiece with ⟨rfl, -⟩ | ⟨-, hne, -⟩
    · simp
    · simp [hne]

/-- Signs come out of themselves only. -/
theorem lowerFrom_eq_self_of_signs {afterCased : Bool} {t : Text}
    (h : ∀ d ∈ lowerFrom afterCased t, IsSign d) : lowerFrom afterCased t = t := by
  induction t generalizing afterCased with
  | nil => rfl
  | cons c cs ih =>
    obtain ⟨piece, later, heq, hpiece⟩ := lowerFrom_cons_cases afterCased c cs
    rw [heq] at h ⊢
    rcases hpiece with ⟨rfl, -⟩ | ⟨-, hne, hall⟩
    · rw [ih fun d hd => h d (List.mem_append_right _ hd)]
      rfl
    · obtain ⟨d, ds, rfl⟩ := List.exists_cons_of_ne_nil hne
      have hbehind := (hall d (by simp)).behind_signs
      have hbefore := (h d (by simp)).1
      omega

theorem lower_eq_self_of_signs {t : Text} (h : ∀ d ∈ lower t, IsSign d) : lower t = t :=
  lowerFrom_eq_self_of_signs h

theorem count_lowerFrom {sign : Char} (hsign : IsSign sign) (afterCased : Bool) (t : Text) :
    (lowerFrom afterCased t).count sign = t.count sign := by
  induction t generalizing afterCased with
  | nil => rfl
  | cons c cs ih =>
    obtain ⟨piece, later, heq, hpiece⟩ := lowerFrom_cons_cases afterCased c cs
    rw [heq, List.count_append, ih, List.count_cons]
    rcases hpiece with ⟨rfl, -⟩ | ⟨hc, -, hall⟩
    · rw [List.count_singleton]
      omega
    · have hpiece : piece.count sign = 0 := by
        refine List.count_eq_zero.mpr fun hmem => ?_
        have hbehind := (hall sign hmem).behind_signs
        have hbefore := hsign.1
        omega
      have hne : (c == sign) = false := by
        refine beq_eq_false_iff_ne.mpr fun heq => hc (heq ▸ hsign)
      rw [hpiece, hne]
      simp

/-- A sign is in the lowered text as often as in the text. -/
theorem count_lower {sign : Char} (hsign : IsSign sign) (t : Text) :
    (lower t).count sign = t.count sign :=
  count_lowerFrom hsign false t

theorem mem_lower_iff {sign : Char} (hsign : IsSign sign) {t : Text} :
    sign ∈ lower t ↔ sign ∈ t := by
  rw [← List.count_pos_iff, count_lower hsign, List.count_pos_iff]

end WorkflowControl.Text
