import WorkflowControl.Proofs.Text.Lower
import WorkflowControl.Token

/-!
Texts that differ in case at most. Signs have no case, so a text that differs from another one in
case only has its signs at the same places (`eq_of_sameFold`), and what is found behind a start up
to case is the rest behind a text that differs from the start in case at most
(`behindFolded?_eq_some_iff`).
-/

namespace WorkflowControl.Text

/-- The folded forms of the table are characters, and those of ASCII are small letters. -/
theorem foldingRuns_images :
    ∀ r ∈ foldingRuns, ∀ k ∈ List.range ((r.last - r.first) / r.step + 1),
      let n := r.target + k * r.step
      n.isValidChar ∧ 97 ≤ n ∧ (n ≤ 122 ∨ 128 ≤ n) := by
  decide +kernel

/-- A character of ASCII that is no letter. -/
def IsCaseless (c : Char) : Prop :=
  c.toNat < 128 ∧ ¬ (65 ≤ c.toNat ∧ c.toNat ≤ 90) ∧ ¬ (97 ≤ c.toNat ∧ c.toNat ≤ 122)

instance (c : Char) : Decidable (IsCaseless c) := inferInstanceAs (Decidable (_ ∧ _))

theorem asciiLower_cases (c : Char) :
    asciiLower c = c ∨ 97 ≤ (asciiLower c).toNat ∧ (asciiLower c).toNat ≤ 122 := by
  unfold asciiLower
  split
  · rename_i hcapital
    obtain ⟨hfrom, hto⟩ := hcapital
    rw [le_iff_toNat] at hfrom hto
    have hfrom : 65 ≤ c.toNat := hfrom
    have hto : c.toNat ≤ 90 := hto
    have hnat : (Char.ofNat (c.toNat + 32)).toNat = c.toNat + 32 :=
      toNat_ofNat (Or.inl (by omega))
    right
    omega
  · exact .inl rfl

/-- A folded form is the character itself, a small letter of ASCII, or outside ASCII. -/
theorem foldChar_cases (c : Char) :
    foldChar c = c ∨ 97 ≤ (foldChar c).toNat ∧ (foldChar c).toNat ≤ 122
      ∨ 128 ≤ (foldChar c).toNat := by
  unfold foldChar
  split
  · rcases asciiLower_cases c with hself | hsmall
    · exact .inl hself
    · exact .inr (.inl hsmall)
  · unfold mapped
    cases himage : imageIn? foldingRuns c.toNat with
    | none => exact .inl rfl
    | some m =>
      obtain ⟨r, hr, hrun⟩ := List.exists_of_findSome?_eq_some himage
      obtain ⟨k, hk, -, rfl⟩ := CaseRun.exists_step_of_image hrun
      obtain ⟨hvalid, hbehind, hends⟩ := foldingRuns_images r hr k hk
      rw [← toNat_ofNat hvalid] at hbehind hends
      right
      dsimp only
      omega

theorem foldChar_of_isCaseless {c : Char} (h : IsCaseless c) : foldChar c = c := by
  obtain ⟨hascii, hcapital, -⟩ := h
  have hnot : ¬ ('A' ≤ c ∧ c ≤ 'Z') := by
    intro ⟨hfrom, hto⟩
    rw [le_iff_toNat] at hfrom hto
    exact hcapital ⟨hfrom, hto⟩
  rw [foldChar, if_pos hascii, asciiLower, if_neg hnot]

/-- A character without case is equal to what it has a folded form in common with. -/
theorem eq_of_foldChar_eq {c d : Char} (hc : IsCaseless c) (h : foldChar d = foldChar c) :
    d = c := by
  rw [foldChar_of_isCaseless hc] at h
  obtain ⟨hascii, -, hsmall⟩ := hc
  rcases foldChar_cases d with hself | hletter | hbeyond
  · rw [← hself, h]
  · rw [h] at hletter
    exact absurd hletter hsmall
  · rw [h] at hbeyond
    omega

/-! ## Texts that are alike -/

/-- Whether two texts differ in case at most. -/
def Alike (t u : Text) : Prop := t.map foldChar = u.map foldChar

instance (t u : Text) : Decidable (Alike t u) := inferInstanceAs (Decidable (_ = _))

theorem Alike.refl (t : Text) : Alike t t := rfl

theorem Alike.symm {t u : Text} (h : Alike t u) : Alike u t := Eq.symm h

theorem Alike.trans {t u v : Text} (h : Alike t u) (h' : Alike u v) : Alike t v := Eq.trans h h'

theorem Alike.length_eq {t u : Text} (h : Alike t u) : t.length = u.length := by
  have hlength := congrArg List.length h
  rwa [List.length_map, List.length_map] at hlength

theorem alike_cons {a b : Char} {t u : Text} :
    Alike (a :: t) (b :: u) ↔ foldChar a = foldChar b ∧ Alike t u := by
  unfold Alike
  rw [List.map_cons, List.map_cons, List.cons.injEq]

theorem Alike.append {t u v w : Text} (h : Alike t u) (h' : Alike v w) :
    Alike (t ++ v) (u ++ w) := by
  unfold Alike at *
  rw [List.map_append, List.map_append, h, h']

/-- Whether a text is its own folded form, as one without capitals is. -/
def IsFolded (t : Text) : Prop := t.map foldChar = t

instance (t : Text) : Decidable (IsFolded t) := inferInstanceAs (Decidable (_ = _))

theorem alike_iff_eq {t u : Text} (ht : IsFolded t) (hu : IsFolded u) : Alike t u ↔ t = u := by
  unfold Alike
  rw [ht, hu]

/-- Signs are at the same places in texts that are alike. -/
theorem Alike.mem_iff {t u : Text} {c : Char} (hc : IsCaseless c) (h : Alike t u) :
    c ∈ t ↔ c ∈ u := by
  have hone : ∀ {t u : Text}, Alike t u → c ∈ t → c ∈ u := by
    intro t u h hmem
    have hfold : foldChar c ∈ u.map foldChar := by
      rw [← h]
      exact List.mem_map_of_mem hmem
    obtain ⟨d, hd, heq⟩ := List.mem_map.mp hfold
    rwa [eq_of_foldChar_eq hc heq] at hd
  exact ⟨hone h, hone h.symm⟩

/-- What stands before the first sign is alike. -/
theorem Alike.upTo {t u : Text} {sign : Char} (hsign : IsCaseless sign) (h : Alike t u) :
    Alike (t.upTo sign) (u.upTo sign) := by
  induction t generalizing u with
  | nil =>
    obtain rfl : u = [] := List.length_eq_zero_iff.mp h.length_eq.symm
    exact .refl _
  | cons a t ih =>
    cases u with
    | nil => cases h.length_eq
    | cons b u =>
      obtain ⟨hfold, htail⟩ := alike_cons.mp h
      unfold Text.upTo at ih ⊢
      rw [List.takeWhile_cons, List.takeWhile_cons]
      by_cases ha : a = sign
      · have hb : b = sign := eq_of_foldChar_eq hsign (ha ▸ hfold.symm)
        simp [ha, hb, Alike.refl]
      · have hb : b ≠ sign := fun hb => ha (eq_of_foldChar_eq hsign (hb ▸ hfold))
        have htails := ih htail
        simpa [ha, hb, alike_cons] using ⟨hfold, htails⟩

/-- What stands before a sign is alike if the sign is not in it. -/
theorem Alike.of_append_sign {t u v w : Text} {c : Char} (hc : IsCaseless c) (ht : c ∉ t)
    (hu : c ∉ u) (h : Alike (t ++ c :: v) (u ++ c :: w)) : Alike t u ∧ Alike v w := by
  induction t generalizing u with
  | nil =>
    cases u with
    | nil => exact ⟨rfl, (alike_cons.mp h).2⟩
    | cons b u =>
      have heq := eq_of_foldChar_eq hc (alike_cons.mp h).1.symm
      exact absurd heq.symm (List.ne_of_not_mem_cons hu)
  | cons a t ih =>
    cases u with
    | nil =>
      have heq := eq_of_foldChar_eq hc (alike_cons.mp h).1
      exact absurd heq.symm (List.ne_of_not_mem_cons ht)
    | cons b u =>
      obtain ⟨hfold, htail⟩ := alike_cons.mp h
      obtain ⟨hbefore, hbehind⟩ :=
        ih (List.not_mem_of_not_mem_cons ht) (List.not_mem_of_not_mem_cons hu) htail
      exact ⟨alike_cons.mpr ⟨hfold, hbefore⟩, hbehind⟩

end WorkflowControl.Text

namespace WorkflowControl.Token

open Text

theorem sameFold_iff {a b : Char} : sameFold a b = true ↔ foldChar a = foldChar b := by
  rw [sameFold, beq_iff_eq]

theorem behindFolded?_eq_some_iff {start t rest : Text} :
    behindFolded? start t = some rest ↔ ∃ p, Alike start p ∧ t = p ++ rest := by
  induction start generalizing t with
  | nil =>
    constructor
    · intro h
      obtain rfl := Option.some.inj h
      exact ⟨[], rfl, rfl⟩
    · intro hgiven
      obtain ⟨p, halike, rfl⟩ := hgiven
      obtain rfl : p = [] := List.length_eq_zero_iff.mp halike.length_eq.symm
      rfl
  | cons s start ih =>
    cases t with
    | nil =>
      constructor
      · intro h
        cases h
      · intro hgiven
        obtain ⟨p, halike, hnil⟩ := hgiven
        obtain ⟨rfl, -⟩ := List.append_eq_nil_iff.mp hnil.symm
        cases halike.length_eq
    | cons c t =>
      rw [behindFolded?]
      constructor
      · intro h
        split at h
        · rename_i hfold
          obtain ⟨p, halike, rfl⟩ := ih.mp h
          exact ⟨c :: p, alike_cons.mpr ⟨sameFold_iff.mp hfold, halike⟩, rfl⟩
        · cases h
      · intro hgiven
        obtain ⟨p, halike, heq⟩ := hgiven
        cases p with
        | nil => cases halike.length_eq
        | cons b p =>
          obtain ⟨rfl, rfl⟩ := List.cons.inj heq
          obtain ⟨hfold, htail⟩ := alike_cons.mp halike
          rw [if_pos (sameFold_iff.mpr hfold)]
          exact ih.mpr ⟨p, htail, rfl⟩

theorem behindFolded?_append {start p : Text} (h : Alike start p) (rest : Text) :
    behindFolded? start (p ++ rest) = some rest :=
  behindFolded?_eq_some_iff.mpr ⟨p, h, rfl⟩

end WorkflowControl.Token
