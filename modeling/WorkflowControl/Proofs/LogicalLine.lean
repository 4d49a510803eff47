import WorkflowControl.Document.Print
import WorkflowControl.LogicalLine
import WorkflowControl.Proofs.Text.Trim

/-!
Logical lines of a text that was written line by line. A text of lines without line ends in them
falls into these lines again (`lines_unlines`). A line whose hash signs are escaped has no comment,
and what is left of it when comments are taken off is the line before the escaping
(`withoutComment_escapeHash`). Where no line is joined to the next one, each line is a logical line
(`texts_join`).
-/

namespace WorkflowControl

namespace Text

theorem lines_append_newline {l : Text} (h : '\n' ∉ l) (t : Text) :
    lines (l ++ '\n' :: t) = l :: lines t := by
  induction l with
  | nil => simp [lines]
  | cons c cs ih =>
    simp only [List.mem_cons, not_or] at h
    rw [List.cons_append, lines, if_neg (Ne.symm h.1), ih h.2]

theorem lines_of_not_mem {t : Text} (hne : t ≠ []) (h : '\n' ∉ t) : lines t = [t] := by
  induction t with
  | nil => exact absurd rfl hne
  | cons c cs ih =>
    simp only [List.mem_cons, not_or] at h
    rw [lines, if_neg (Ne.symm h.1)]
    by_cases hcs : cs = []
    · simp [hcs, lines]
    · simp [ih hcs h.2]

theorem lines_unlines {ls : List Text} (h : ∀ l ∈ ls, '\n' ∉ l) : lines (unlines ls) = ls := by
  induction ls with
  | nil => rfl
  | cons l ls ih =>
    have hl : '\n' ∉ l := h l (by simp)
    have hls : ∀ l ∈ ls, '\n' ∉ l := fun x hx => h x (by simp [hx])
    rw [unlines, List.flatMap_cons, List.append_assoc, List.singleton_append,
      lines_append_newline hl]
    exact congrArg (l :: ·) (ih hls)

theorem unlines_append (ls ms : List Text) : unlines (ls ++ ms) = unlines ls ++ unlines ms := by
  simp [unlines]

/-! ## Escaped hash signs -/

@[simp] theorem escapeHash_nil : escapeHash [] = [] := rfl

theorem escapeHash_cons (c : Char) (t : Text) :
    escapeHash (c :: t) = (if c = '#' then ['\\', '#'] else [c]) ++ escapeHash t := by
  rw [escapeHash, List.flatMap_cons, escapeHash]

theorem escapeHash_append (t u : Text) : escapeHash (t ++ u) = escapeHash t ++ escapeHash u := by
  simp [escapeHash]

theorem escapeHash_of_not_mem {t : Text} (h : '#' ∉ t) : escapeHash t = t := by
  induction t with
  | nil => rfl
  | cons c t ih =>
    simp only [List.mem_cons, not_or] at h
    rw [escapeHash_cons, if_neg (Ne.symm h.1), ih h.2]
    rfl

/-- No escaped text begins with a hash sign. -/
theorem head_escapeHash_ne (t : Text) : (escapeHash t).head? ≠ some '#' := by
  cases t with
  | nil => simp
  | cons c t =>
    rw [escapeHash_cons]
    split
    · simp
    · simpa using ‹c ≠ '#'›

theorem getLast_escapeHash (t : Text) : (escapeHash t).getLast? = t.getLast? := by
  rcases List.eq_nil_or_concat t with rfl | ⟨init, c, rfl⟩
  · rfl
  · rw [List.concat_eq_append, escapeHash_append, escapeHash_cons]
    split
    · simp [*]
    · simp

theorem mem_escapeHash {c : Char} (hc : c ≠ '\\') {t : Text} : c ∈ escapeHash t ↔ c ∈ t := by
  induction t with
  | nil => simp
  | cons d t ih =>
    rw [escapeHash_cons]
    split
    · simp [*]
    · simp [ih]

/-- Hash signs are no blanks, so they can be escaped before or after trimming. -/
theorem trim_escapeHash (t : Text) : t.escapeHash.trim = t.trim.escapeHash := by
  have hfree : ∀ u : Text, (∀ c ∈ u, isBlank c = true) → u.escapeHash = u := by
    intro u hu
    exact escapeHash_of_not_mem fun hmem => absurd (hu _ hmem) (by decide)
  have htrimmed : t.trim.escapeHash.trim = t.trim.escapeHash := by
    refine trim_of_ends ?_ ?_
    · intro c hc
      have hhead := head_trim t
      cases ht : t.trim with
      | nil => rw [ht] at hc; cases hc
      | cons d u =>
        rw [ht] at hc hhead
        rw [escapeHash_cons] at hc
        split at hc
        · obtain rfl := Option.some.inj hc
          rfl
        · obtain rfl := Option.some.inj hc
          exact hhead d rfl
    · rw [getLast_escapeHash]
      exact last_trim t
  obtain ⟨a, b, ht, ha, hb⟩ := eq_blanks_trim_blanks t
  have hescaped : t.escapeHash = a ++ (t.trim.escapeHash ++ b) := by
    conv => lhs; rw [ht]
    rw [escapeHash_append, escapeHash_append, hfree a ha, hfree b hb, List.append_assoc]
  rw [hescaped, trim_blanks_append ha, trim_append_blanks hb, htrimmed]

end Text

namespace LogicalLine

open Text

/-- Whether the character behind a text is escaped, where `escaped` says so for the first one. -/
def escapedAfter (escaped : Bool) : Text → Bool
  | [] => escaped
  | c :: cs => escapedAfter (c == '\\') cs

theorem escapedAfter_eq_false {t : Text} (h : t.getLast? ≠ some '\\') {escaped : Bool}
    (hnil : t = [] → escaped = false) : escapedAfter escaped t = false := by
  induction t generalizing escaped with
  | nil => exact hnil rfl
  | cons c cs ih =>
    cases cs with
    | nil =>
      show (c == '\\') = false
      simpa using h
    | cons d ds =>
      rw [escapedAfter]
      exact ih (by simpa [List.getLast?_cons] using h) nofun

/-- No comment begins in an escaped text, so it is looked for behind it. -/
theorem cutComment_escapeHash_append (t u : Text) (escaped : Bool) :
    cutComment escaped (escapeHash t ++ u) = escapeHash t ++ cutComment (escapedAfter escaped t) u := by
  induction t generalizing escaped with
  | nil => rfl
  | cons c t ih =>
    rw [escapeHash_cons, List.append_assoc, escapedAfter]
    by_cases hc : c = '#'
    · simp [hc, cutComment, ih]
    · simp [hc, cutComment, ih]

theorem cutComment_escapeHash (t : Text) (escaped : Bool) :
    cutComment escaped (escapeHash t) = escapeHash t := by
  have hcut := cutComment_escapeHash_append t [] escaped
  rwa [cutComment, List.append_nil] at hcut

theorem unescapeHash_escapeHash (t : Text) : unescapeHash (escapeHash t) = t := by
  induction t with
  | nil => rfl
  | cons c t ih =>
    rw [escapeHash_cons]
    by_cases hc : c = '#'
    · simp [hc, unescapeHash, ih]
    · -- An escape cannot begin at `c`, since the rest does not start with a hash sign.
      have hhead := head_escapeHash_ne t
      rw [if_neg hc, List.singleton_append]
      cases ht : escapeHash t with
      | nil =>
        rw [ht] at ih
        rw [unescapeHash, ← ih, unescapeHash]
      | cons d ds =>
        have hd : d ≠ '#' := by
          rw [ht] at hhead
          simpa using hhead
        rw [unescapeHash, if_neg (by simp [hd]), ← ht, ih]

theorem withoutComment_escapeHash (t : Text) : withoutComment (escapeHash t) = t := by
  rw [withoutComment, cutComment_escapeHash, unescapeHash_escapeHash]

/-! ## Comments -/

theorem unescapeHash_cons {c : Char} (hc : c ≠ '\\') (t : Text) :
    unescapeHash (c :: t) = c :: unescapeHash t := by
  cases t with
  | nil => rfl
  | cons d ds => rw [unescapeHash, if_neg (by simp [hc])]

theorem unescapeHash_ne_nil {t : Text} (h : t ≠ []) : unescapeHash t ≠ [] := by
  cases t with
  | nil => exact absurd rfl h
  | cons c t =>
    cases t with
    | nil => exact List.cons_ne_nil c []
    | cons d t =>
      rw [unescapeHash]
      split
      · exact List.cons_ne_nil _ _
      · exact List.cons_ne_nil _ _

theorem unescapeHash_append (t : Text) {u : Text} (hu : u.head? ≠ some '#') :
    unescapeHash (t ++ u) = unescapeHash t ++ unescapeHash u := by
  induction t using unescapeHash.induct with
  | case1 => rfl
  | case2 c =>
    cases u with
    | nil => rfl
    | cons d ds =>
      have hd : d ≠ '#' := by simpa using hu
      show unescapeHash (c :: d :: ds) = c :: unescapeHash (d :: ds)
      rw [unescapeHash, if_neg (by simp [hd])]
  | case3 c d cs hcd ih =>
    rw [List.cons_append, List.cons_append, unescapeHash, if_pos hcd, ih, unescapeHash, if_pos hcd]
    rfl
  | case4 c d cs hcd ih =>
    rw [List.cons_append, List.cons_append, unescapeHash, if_neg hcd, ← List.cons_append, ih,
      unescapeHash, if_neg hcd]
    rfl

theorem unescapeHash_append_blank (t u : Text) :
    unescapeHash (t ++ ' ' :: u) = unescapeHash t ++ ' ' :: unescapeHash u := by
  rw [unescapeHash_append t (by simp), unescapeHash_cons (by decide)]

theorem unescapeHash_of_not_mem {t : Text} (h : '#' ∉ t) : unescapeHash t = t := by
  have hescaped := unescapeHash_escapeHash t
  rwa [escapeHash_of_not_mem h] at hescaped

theorem getLast?_unescapeHash (t : Text) : (unescapeHash t).getLast? = t.getLast? := by
  induction t using unescapeHash.induct with
  | case1 => rfl
  | case2 c => rfl
  | case3 c d cs hcd ih =>
    obtain ⟨rfl, rfl⟩ := hcd
    rw [unescapeHash, if_pos ⟨rfl, rfl⟩, List.getLast?_cons, ih, List.getLast?_cons,
      List.getLast?_cons]
    rfl
  | case4 c d cs hcd ih =>
    rw [unescapeHash, if_neg hcd, List.getLast?_cons, ih, List.getLast?_cons (l := d :: cs)]

/-- A comment that begins in a part of a text takes the rest with it; otherwise it is looked for in
the rest. -/
theorem cutComment_append (escaped : Bool) (t u : Text) :
    cutComment escaped (t ++ u) = cutComment escaped t
      ∨ cutComment escaped (t ++ u) = t ++ cutComment (escapedAfter escaped t) u
        ∧ cutComment escaped t = t := by
  induction t generalizing escaped with
  | nil => exact .inr ⟨rfl, rfl⟩
  | cons c cs ih =>
    rw [List.cons_append, cutComment, cutComment]
    split
    · exact .inl rfl
    · rcases ih (c == '\\') with hcut | ⟨hwhole, hcs⟩
      · exact .inl (by rw [hcut])
      · exact .inr ⟨by rw [hwhole, List.cons_append, escapedAfter], by rw [hcs]⟩

/-- A comment behind an escaped text is cut off. -/
theorem cutComment_escapeHash_hash {t : Text} (hlast : t.getLast? ≠ some '\\') (comment : Text) :
    cutComment false (escapeHash t ++ '#' :: comment) = escapeHash t := by
  have hcut : cutComment false ('#' :: comment) = [] := by rw [cutComment, if_pos ⟨rfl, rfl⟩]
  rw [cutComment_escapeHash_append, escapedAfter_eq_false hlast fun _ => rfl, hcut, List.append_nil]

/-- What stands in front of a hash sign is left when the comment is taken off. -/
theorem cutComment_append_hash {t : Text} (hhash : '#' ∉ t) (hlast : t.getLast? ≠ some '\\')
    (comment : Text) : cutComment false (t ++ '#' :: comment) = t := by
  have hcut := cutComment_escapeHash_hash hlast comment
  rwa [escapeHash_of_not_mem hhash] at hcut

theorem withoutComment_append_blank (t u : Text) :
    withoutComment (t ++ ' ' :: u) = withoutComment t
      ∨ withoutComment (t ++ ' ' :: u) = withoutComment t ++ ' ' :: withoutComment u
        ∧ withoutComment t = unescapeHash t := by
  have hblank : ∀ escaped, cutComment escaped (' ' :: u) = ' ' :: cutComment false u := by
    intro escaped
    rw [cutComment, if_neg (by simp)]
    rfl
  rw [withoutComment, withoutComment, withoutComment]
  rcases cutComment_append false t (' ' :: u) with hcut | ⟨hwhole, ht⟩
  · exact .inl (by rw [hcut])
  · exact .inr ⟨by rw [hwhole, hblank, unescapeHash_append_blank, ht], by rw [ht]⟩

theorem withoutComment_cons {c : Char} (hc : c ≠ '\\') (hhash : c ≠ '#') (t : Text) :
    withoutComment (c :: t) = c :: withoutComment t := by
  have hflag : (c == '\\') = false := by simpa using hc
  rw [withoutComment, cutComment, if_neg (by simp [hhash]), hflag, unescapeHash_cons hc,
    withoutComment]

theorem count_unescapeHash_le (t : Text) : (unescapeHash t).count '\\' ≤ t.count '\\' := by
  induction t using unescapeHash.induct with
  | case1 => exact Nat.le_refl _
  | case2 c => exact Nat.le_refl _
  | case3 c d cs hcd ih =>
    obtain ⟨rfl, rfl⟩ := hcd
    rw [unescapeHash, if_pos ⟨rfl, rfl⟩]
    simp only [List.count_cons]
    simp only [Char.reduceBEq]
    omega
  | case4 c d cs hcd ih =>
    rw [unescapeHash, if_neg hcd]
    rw [List.count_cons, List.count_cons (l := d :: cs)]
    omega

theorem cutComment_prefix_self (escaped : Bool) (t : Text) : cutComment escaped t <+: t := by
  induction t generalizing escaped with
  | nil => exact List.prefix_refl _
  | cons c cs ih =>
    rw [cutComment]
    split
    · exact List.nil_prefix
    · exact List.cons_prefix_cons.mpr ⟨rfl, ih _⟩

theorem unescapeHash_subset (t : Text) : unescapeHash t ⊆ t := by
  induction t using unescapeHash.induct with
  | case1 => exact List.Subset.refl _
  | case2 c => exact List.Subset.refl _
  | case3 c d cs hcd ih =>
    rw [unescapeHash, if_pos hcd]
    intro x hx
    rcases List.mem_cons.mp hx with rfl | hx
    · simp [hcd.2]
    · simp [ih hx]
  | case4 c d cs hcd ih =>
    rw [unescapeHash, if_neg hcd]
    intro x hx
    rcases List.mem_cons.mp hx with rfl | hx
    · simp
    · exact List.mem_cons_of_mem _ (ih hx)

theorem withoutComment_subset (t : Text) : withoutComment t ⊆ t := fun _ hx =>
  (cutComment_prefix_self false t).subset (unescapeHash_subset _ hx)

theorem cutComment_cutComment (escaped : Bool) (t : Text) :
    cutComment escaped (cutComment escaped t) = cutComment escaped t := by
  induction t generalizing escaped with
  | nil => rfl
  | cons c cs ih =>
    rw [cutComment]
    split
    · rfl
    · next hopen => rw [cutComment, if_neg hopen, ih]

/-- A hash sign in a text without a comment costs a backslash when it is put back. -/
theorem count_unescapeHash_lt {t : Text} (hcut : cutComment false t = t) (h : '#' ∈ t) :
    (unescapeHash t).count '\\' < t.count '\\' := by
  induction t using unescapeHash.induct with
  | case1 => cases h
  | case2 c =>
    obtain rfl := List.mem_singleton.mp h
    cases hcut
  | case3 c d cs hcd ih =>
    obtain ⟨rfl, rfl⟩ := hcd
    have hle := count_unescapeHash_le cs
    rw [unescapeHash, if_pos ⟨rfl, rfl⟩]
    simp only [List.count_cons, Char.reduceBEq, if_true]
    simp only [Bool.false_eq_true, if_false]
    omega
  | case4 c d cs hcd ih =>
    have hhash : c ≠ '#' := by
      rintro rfl
      rw [cutComment, if_pos ⟨rfl, rfl⟩] at hcut
      cases hcut
    rw [cutComment, if_neg fun hopen => hhash hopen.1] at hcut
    have hrest : cutComment (c == '\\') (d :: cs) = d :: cs := (List.cons.inj hcut).2
    -- A backslash changes nothing for the next character, which is no hash sign.
    have hsame : cutComment false (d :: cs) = cutComment (c == '\\') (d :: cs) := by
      by_cases hc : c = '\\'
      · have hd : d ≠ '#' := fun hd => hcd ⟨hc, hd⟩
        rw [cutComment, cutComment, if_neg fun hopen => hd hopen.1, if_neg fun hopen => hd hopen.1]
      · have hflag : (c == '\\') = false := by simpa using hc
        rw [hflag]
    have hmem : '#' ∈ d :: cs := (List.mem_cons.mp h).resolve_left hhash.symm
    have hlt := ih (hsame.trans hrest) hmem
    rw [unescapeHash, if_neg hcd, List.count_cons, List.count_cons (l := d :: cs)]
    omega

/-- A hash sign that is left when comments are taken off has cost a backslash. -/
theorem count_withoutComment_lt {t : Text} (h : '#' ∈ withoutComment t) :
    (withoutComment t).count '\\' < t.count '\\' := by
  have hmem : '#' ∈ cutComment false t := unescapeHash_subset _ h
  calc (withoutComment t).count '\\'
      < (cutComment false t).count '\\' :=
        count_unescapeHash_lt (cutComment_cutComment false t) hmem
    _ ≤ t.count '\\' := (cutComment_prefix_self false t).sublist.count_le '\\'

/-! ## The lines of a text -/

theorem texts_ofText (t : Text) :
    (ofText t).map LogicalLine.text
      = (((join 0 none t.lines).map LogicalLine.text).map withoutComment).filter
          fun l => !l.trim.isEmpty := by
  rw [ofText, List.map_map, List.filter_map, List.filter_map, List.map_map]
  rfl

theorem dropLast_escapeHash {t : Text} (h : t.getLast? = some '\\') :
    (escapeHash t).dropLast = escapeHash t.dropLast := by
  obtain ⟨init, rfl⟩ := List.getLast?_eq_some_iff.mp h
  have hend : escapeHash (init ++ ['\\']) = escapeHash init ++ ['\\'] := escapeHash_append _ _
  rw [hend, List.dropLast_concat, List.dropLast_concat]

/-- Lines can be joined before hash signs are escaped. -/
theorem join_map_escapeHash (ls : List Text) (n : Nat) (pending : Option Text) :
    join n (pending.map escapeHash) (ls.map escapeHash)
      = (join n pending ls).map fun l => { l with text := escapeHash l.text } := by
  induction ls generalizing n pending with
  | nil => cases pending <;> rfl
  | cons physical rest ih =>
    have htext : (pending.map escapeHash).getD [] ++ (escapeHash physical).trim
        = escapeHash (pending.getD [] ++ physical.trim) := by
      rw [escapeHash_append, trim_escapeHash]
      cases pending <;> rfl
    rw [List.map_cons, join, join, htext, getLast_escapeHash]
    split
    · rename_i hlast
      rw [dropLast_escapeHash hlast]
      exact ih (n + 1) (some _)
    · rw [List.map_cons]
      exact congrArg (_ :: ·) (ih (n + 1) none)

/-- Where no line is joined to the next one, each of them is a logical line. -/
theorem texts_join (ls : List Text) (n : Nat) (h : ∀ l ∈ ls, l.trim.getLast? ≠ some '\\') :
    (join n none ls).map LogicalLine.text = ls.map trim := by
  induction ls generalizing n with
  | nil => rfl
  | cons l ls ih =>
    have hl : l.trim.getLast? ≠ some '\\' := h l (by simp)
    have hls : ∀ l ∈ ls, l.trim.getLast? ≠ some '\\' := fun x hx => h x (by simp [hx])
    rw [join]
    simp only [Option.getD_none, List.nil_append, if_neg hl, List.map_cons]
    exact congrArg (trim l :: ·) (ih (n + 1) hls)

/-! ## Joined lines -/

/-- A logical line begins with a physical one, up to the backslash that joins the next one to it.
-/
theorem text_of_mem_join {ls : List Text} (hne : ∀ p ∈ ls, p.trim ≠ []) {n : Nat}
    {l : LogicalLine} (h : l ∈ join n none ls) :
    ∃ p ∈ ls, (p.trim.getLast? ≠ some '\\' ∧ l.text = p.trim)
      ∨ (p.trim.getLast? = some '\\' ∧ p.trim.dropLast <+: l.text) := by
  -- With a pending line the first joined line may begin with that one instead.
  have hpending : ∀ (n : Nat) (pending : Option Text), ∀ l ∈ join n pending ls,
      (∃ q ∈ pending, q <+: l.text) ∨ ∃ p ∈ ls,
        (p.trim.getLast? ≠ some '\\' ∧ l.text = p.trim)
          ∨ (p.trim.getLast? = some '\\' ∧ p.trim.dropLast <+: l.text) := by
    clear h
    induction ls with
    | nil =>
      intro n pending l hl
      cases pending with
      | none => cases hl
      | some q =>
        obtain rfl := List.mem_singleton.mp hl
        exact .inl ⟨q, rfl, List.prefix_refl q⟩
    | cons physical rest ih =>
      have hphysical : physical.trim ≠ [] := hne physical (by simp)
      have ih := ih fun p hp => hne p (List.mem_cons_of_mem _ hp)
      intro n pending l hl
      rw [join] at hl
      split at hl
      · rename_i hlast
        rcases ih _ _ l hl with ⟨q, hq, hbefore⟩ | ⟨p, hp, hform⟩
        · obtain rfl := Option.some.inj hq
          cases pending with
          | none => exact .inr ⟨physical, by simp, .inr ⟨hlast, hbefore⟩⟩
          | some q =>
            refine .inl ⟨q, rfl, (List.prefix_append q physical.trim.dropLast).trans ?_⟩
            rwa [Option.getD_some, List.dropLast_append_of_ne_nil hphysical] at hbefore
        · exact .inr ⟨p, List.mem_cons_of_mem _ hp, hform⟩
      · rename_i hlast
        rcases List.mem_cons.mp hl with rfl | hl
        · cases pending with
          | none => exact .inr ⟨physical, by simp, .inl ⟨hlast, rfl⟩⟩
          | some q => exact .inl ⟨q, rfl, List.prefix_append q physical.trim⟩
        · rcases ih _ _ l hl with ⟨q, hq, -⟩ | ⟨p, hp, hform⟩
          · cases hq
          · exact .inr ⟨p, List.mem_cons_of_mem _ hp, hform⟩
  rcases hpending n none l h with ⟨q, hq, -⟩ | hform
  · cases hq
  · exact hform

/-- Lines that are all continued are one logical line. -/
theorem join_of_continued {ls : List Text} (h : ∀ p ∈ ls, p.trim.getLast? = some '\\') (n : Nat)
    (pending : Text) :
    (join n (some pending) ls).map LogicalLine.text
      = [pending ++ ls.flatMap fun p => p.trim.dropLast] := by
  induction ls generalizing n pending with
  | nil => simp [join]
  | cons physical rest ih =>
    have hlast := h physical (by simp)
    have hne : physical.trim ≠ [] := by
      intro hnil
      rw [hnil] at hlast
      cases hlast
    have htext : (pending ++ physical.trim).getLast? = some '\\' := by
      rw [List.getLast?_append, hlast]
      rfl
    rw [join, Option.getD_some, if_pos htext, ih (fun p hp => h p (List.mem_cons_of_mem _ hp)),
      List.dropLast_append_of_ne_nil hne, List.append_assoc, List.flatMap_cons]

/-- Where a line is not continued, the lines behind it are joined by themselves. -/
theorem join_append (ls : List Text) {last : Text} (hlast : last.trim.getLast? ≠ some '\\')
    (hne : last.trim ≠ []) (n : Nat) (pending : Option Text) (rest : List Text) :
    ∃ m, join n pending (ls ++ last :: rest)
      = join n pending (ls ++ [last]) ++ join m none rest := by
  induction ls generalizing n pending with
  | nil =>
    have htext : (pending.getD [] ++ last.trim).getLast? ≠ some '\\' := by
      rw [List.getLast?_append]
      cases ht : last.trim.getLast? with
      | none => exact absurd (List.getLast?_eq_none_iff.mp ht) hne
      | some c =>
        rw [ht] at hlast
        exact hlast
    refine ⟨n + 1, ?_⟩
    rw [List.nil_append, List.nil_append, join, join, if_neg htext, if_neg htext]
    rfl
  | cons physical ls ih =>
    rw [List.cons_append, List.cons_append, join, join]
    split
    · exact ih (n + 1) _
    · obtain ⟨m, hm⟩ := ih (n + 1) none
      exact ⟨m, by rw [hm, List.cons_append]⟩

/-- A logical line ends like a physical one that is not continued, unless the last line of all is
continued. -/
theorem getLast_of_mem_join {ls : List Text} {last : Text}
    (hlast : last.trim.getLast? ≠ some '\\') (hne : ∀ p ∈ ls ++ [last], p.trim ≠ []) {n : Nat}
    {pending : Option Text} {l : LogicalLine} (h : l ∈ join n pending (ls ++ [last])) :
    l.text.getLast? ≠ some '\\' ∧ ∃ p ∈ ls ++ [last], l.text.getLast? = p.trim.getLast? := by
  have hend : ∀ (t p : Text), p.trim ≠ [] → (t ++ p.trim).getLast? = p.trim.getLast? := by
    intro t p hp
    rw [List.getLast?_append]
    cases hc : p.trim.getLast? with
    | none => exact absurd (List.getLast?_eq_none_iff.mp hc) hp
    | some c => rfl
  induction ls generalizing n pending with
  | nil =>
    have htext := hend (pending.getD []) last (hne last (by simp))
    have hnot : (pending.getD [] ++ last.trim).getLast? ≠ some '\\' := by rwa [htext]
    simp only [List.nil_append, join, if_neg hnot, List.mem_singleton] at h
    rw [h]
    exact ⟨hnot, last, by simp, htext⟩
  | cons physical ls ih =>
    have hrest : ∀ p ∈ ls ++ [last], p.trim ≠ [] := fun p hp => hne p (List.mem_cons_of_mem _ hp)
    rw [List.cons_append, join] at h
    split at h
    · obtain ⟨hnot, p, hp, heq⟩ := ih hrest h
      exact ⟨hnot, p, List.mem_cons_of_mem _ hp, heq⟩
    · rename_i hnot
      rcases List.mem_cons.mp h with rfl | h
      · exact ⟨hnot, physical, by simp, hend _ physical (hne physical (by simp))⟩
      · obtain ⟨hnot', p, hp, heq⟩ := ih hrest h
        exact ⟨hnot', p, List.mem_cons_of_mem _ hp, heq⟩

/-! ## Lines in parts -/

/-- The start of a logical line that some physical lines leave to the next one, where `pending` is
the one that is left to them. -/
def pendingAfter (pending : Option Text) : List Text → Option Text
  | [] => pending
  | physical :: rest =>
    let text := pending.getD [] ++ physical.trim
    pendingAfter (if text.getLast? = some '\\' then some text.dropLast else none) rest

/-- Whether physical lines end together with a logical line. -/
def Complete (ls : List Text) : Prop := pendingAfter none ls = none

instance (ls : List Text) : Decidable (Complete ls) := inferInstanceAs (Decidable (_ = _))

/-- The logical lines that end within some physical lines come first; the others are those of the rest
with what is left to it. -/
theorem exists_join_append (ls : List Text) (n : Nat) (pending : Option Text) :
    ∃ ended, ∀ more, join n pending (ls ++ more)
      = ended ++ join (n + ls.length) (pendingAfter pending ls) more := by
  induction ls generalizing n pending with
  | nil => exact ⟨[], fun _ => rfl⟩
  | cons physical rest ih =>
    have hlength : n + (physical :: rest).length = n + 1 + rest.length := by
      rw [List.length_cons]
      omega
    by_cases hlast : (pending.getD [] ++ physical.trim).getLast? = some '\\'
    · obtain ⟨ended, hended⟩ := ih (n + 1) (some (pending.getD [] ++ physical.trim).dropLast)
      refine ⟨ended, fun more => ?_⟩
      rw [List.cons_append, join, pendingAfter, hlength]
      simp only [if_pos hlast]
      exact hended more
    · obtain ⟨ended, hended⟩ := ih (n + 1) none
      refine ⟨⟨n + 1, pending.getD [] ++ physical.trim⟩ :: ended, fun more => ?_⟩
      rw [List.cons_append, join, pendingAfter, hlength]
      simp only [if_neg hlast]
      exact congrArg (_ :: ·) (hended more)

theorem join_append_of_pendingAfter {ls : List Text} {pending : Option Text}
    (h : pendingAfter pending ls = none) (n : Nat) (more : List Text) :
    join n pending (ls ++ more) = join n pending ls ++ join (n + ls.length) none more := by
  obtain ⟨ended, hended⟩ := exists_join_append ls n pending
  rw [h] at hended
  have hown : join n pending ls = ended := by
    rw [← List.append_nil ls, hended]
    exact List.append_nil ended
  rw [hended, hown]

/-- What the logical lines are does not depend on their numbers. -/
theorem texts_join_number (ls : List Text) (n m : Nat) (pending : Option Text) :
    (join n pending ls).map LogicalLine.text = (join m pending ls).map LogicalLine.text := by
  induction ls generalizing n m pending with
  | nil => cases pending <;> rfl
  | cons physical rest ih =>
    rw [join, join]
    split
    · exact ih (n + 1) (m + 1) _
    · rw [List.map_cons, List.map_cons, ih (n + 1) (m + 1) none]

/-- The texts of the logical lines that physical lines make, without comments and blank lines. -/
def textsOf (ls : List Text) : List Text :=
  (((join 0 none ls).map LogicalLine.text).map withoutComment).filter fun l => !l.trim.isEmpty

theorem textsOf_append {ls : List Text} (h : Complete ls) (more : List Text) :
    textsOf (ls ++ more) = textsOf ls ++ textsOf more := by
  rw [textsOf, join_append_of_pendingAfter h, List.map_append,
    texts_join_number more (0 + ls.length) 0, List.map_append, List.filter_append]
  rfl

/-! ## Line ends -/

theorem newline_not_mem_lines {t l : Text} (h : l ∈ t.lines) : '\n' ∉ l := by
  induction t generalizing l with
  | nil => cases h
  | cons c cs ih =>
    rw [Text.lines] at h
    split at h
    · rcases List.mem_cons.mp h with rfl | h
      · exact List.not_mem_nil
      · exact ih h
    · rename_i hc
      cases hcs : Text.lines cs with
      | nil =>
        rw [hcs] at h
        obtain rfl := List.mem_singleton.mp h
        simpa using Ne.symm hc
      | cons line rest =>
        rw [hcs] at h
        rcases List.mem_cons.mp h with rfl | h
        · have hline : '\n' ∉ line := ih (by simp [hcs])
          simpa [hline] using Ne.symm hc
        · exact ih (by simp [hcs, h])

theorem newline_not_mem_join {ls : List Text} (h : ∀ l ∈ ls, '\n' ∉ l) (n : Nat)
    (pending : Option Text) (hp : ∀ p ∈ pending, '\n' ∉ p) :
    ∀ l ∈ join n pending ls, '\n' ∉ l.text := by
  induction ls generalizing n pending with
  | nil =>
    intro l hl
    cases pending with
    | none => cases hl
    | some p =>
      obtain rfl := List.mem_singleton.mp hl
      exact hp p rfl
  | cons physical rest ih =>
    have hrest : ∀ l ∈ rest, '\n' ∉ l := fun l hl => h l (List.mem_cons_of_mem _ hl)
    have htext : '\n' ∉ pending.getD [] ++ physical.trim := by
      rw [List.mem_append, not_or]
      refine ⟨?_, fun hmem => h physical (by simp) ((Text.trim_infix_self physical).subset hmem)⟩
      cases pending with
      | none => exact List.not_mem_nil
      | some p => exact hp p rfl
    intro l hl
    rw [join] at hl
    split at hl
    · refine ih hrest (n + 1) _ ?_ l hl
      rintro p ⟨⟩ hmem
      exact htext (List.dropLast_subset _ hmem)
    · rcases List.mem_cons.mp hl with rfl | hl
      · exact htext
      · exact ih hrest (n + 1) none (by simp) l hl

theorem newline_not_mem_text {t : Text} {l : LogicalLine} (h : l ∈ ofText t) : '\n' ∉ l.text := by
  obtain ⟨hl, -⟩ := List.mem_filter.mp h
  obtain ⟨raw, hraw, rfl⟩ := List.mem_map.mp hl
  intro hmem
  exact newline_not_mem_join (fun l hl => newline_not_mem_lines hl) 0 none (by simp) raw hraw
    (withoutComment_subset raw.text hmem)

end LogicalLine

end WorkflowControl
