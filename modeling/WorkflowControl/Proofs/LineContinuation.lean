import WorkflowControl.Proofs.LineBlanks
import WorkflowControl.Proofs.LogicalLine

/-!
Lines that are continued. A physical line may be continued on a further one wherever no blank is
next to it: a backslash, a line end and blanks there leave the logical lines as they are
(`join_continued`), whatever stands at both sides, since the next line is joined to this one without
the backslash and without its blanks, and all that before comments are taken off. What changes are
the numbers, by one from that line on (`Continues.ofText`).
-/

namespace WorkflowControl

namespace Text

/-- A text is some whole lines and the start of one more. -/
theorem exists_eq_unlines_append (t : Text) : ∃ (front : List Text) (left : Text),
    t = unlines front ++ left ∧ (∀ l ∈ front, '\n' ∉ l) ∧ '\n' ∉ left
      ∧ front.length = t.count '\n' := by
  induction t with
  | nil => exact ⟨[], [], rfl, nofun, nofun, rfl⟩
  | cons c t ih =>
    obtain ⟨front, left, ht, hfront, hleft, hcount⟩ := ih
    by_cases hc : c = '\n'
    · subst hc
      refine ⟨[] :: front, left, by rw [ht]; rfl, ?_, hleft, ?_⟩
      · exact List.forall_mem_cons.mpr ⟨nofun, hfront⟩
      · rw [List.length_cons, hcount, List.count_cons_self]
    · rw [List.count_cons_of_ne hc]
      cases front with
      | nil =>
        refine ⟨[], c :: left, by rw [ht]; rfl, nofun, ?_, hcount⟩
        exact List.not_mem_cons_of_ne_of_not_mem (Ne.symm hc) hleft
      | cons l front =>
        refine ⟨(c :: l) :: front, left, by rw [ht]; rfl, ?_, hleft, hcount⟩
        rw [List.forall_mem_cons] at hfront ⊢
        exact ⟨List.not_mem_cons_of_ne_of_not_mem (Ne.symm hc) hfront.1, hfront.2⟩

theorem lines_unlines_append {ls : List Text} (h : ∀ l ∈ ls, '\n' ∉ l) (t : Text) :
    lines (unlines ls ++ t) = ls ++ lines t := by
  induction ls with
  | nil => rfl
  | cons l ls ih =>
    rw [List.forall_mem_cons] at h
    rw [unlines, List.flatMap_cons, List.append_assoc, List.append_assoc, List.singleton_append,
      lines_append_newline h.1]
    exact congrArg (l :: ·) (ih h.2)

/-- Behind whole lines, a sign at the end of a text is one of a further line. -/
theorem getLast?_of_unlines_append {front : List Text} {left : Text} {c : Char}
    (h : (unlines front ++ left).getLast? = some c) (hc : isBlank c = false) :
    left.getLast? = some c := by
  by_cases hleft : left = []
  · subst hleft
    rw [List.append_nil] at h
    rcases List.eq_nil_or_concat front with rfl | ⟨init, l, rfl⟩
    · cases h
    · rw [List.concat_eq_append, unlines_append, unlines, unlines, List.flatMap_singleton,
        ← List.append_assoc, List.getLast?_concat] at h
      obtain rfl := Option.some.inj h
      cases hc
  · rwa [List.getLast?_append_of_ne_nil _ hleft] at h

/-- The first line of a text goes on from what is put in front of it, and the others stay. -/
theorem exists_lines_append (t : Text) : ∃ (right : Text) (back : List Text),
    (t.head? ≠ some '\n' → right.head? = t.head?)
      ∧ ∀ left, '\n' ∉ left → left ++ right ≠ [] → lines (left ++ t) = (left ++ right) :: back := by
  by_cases hmem : '\n' ∈ t
  · obtain ⟨right, rest, rfl, hright⟩ := List.eq_append_cons_of_mem hmem
    refine ⟨right, lines rest, fun hhead => ?_, fun left hleft _ => ?_⟩
    · cases right with
      | nil => exact absurd rfl hhead
      | cons c right => rfl
    · rw [← List.append_assoc, lines_append_newline (List.not_mem_append hleft hright)]
  · refine ⟨t, [], fun _ => rfl, fun left hleft hne => ?_⟩
    exact lines_of_not_mem hne (List.not_mem_append hleft hmem)

/-- A text in two parts that meet at signs is trimmed part by part. -/
theorem trim_append {t u : Text} {c d : Char} (ht : t.getLast? = some c) (hc : isBlank c = false)
    (hu : u.head? = some d) (hd : isBlank d = false) : trim (t ++ u) = trimStart t ++ trim u := by
  have htrim : trim u = trimEnd u := by
    refine trim_eq_trimEnd fun e he => ?_
    rw [hu] at he
    rwa [Option.some.inj he] at hd
  have hne : trimEnd u ≠ [] := by
    intro hnil
    rw [← htrim] at hnil
    have hblank := trim_eq_nil_iff.mp hnil d (List.mem_of_mem_head? hu)
    rw [hd] at hblank
    cases hblank
  rw [trim, trimStart_append_of_ne_nil (trimStart_ne_nil_of_last ht hc),
    trimEnd_append_of_ne_nil hne, htrim]

end Text

namespace LogicalLine

open Text

/-! ## Numbers of lines -/

/-- The line with another number. -/
def renumbered (renumber : Nat → Nat) (l : LogicalLine) : LogicalLine :=
  { l with number := renumber l.number }

theorem ofText_renumbered {t t' : Text} {renumber : Nat → Nat}
    (h : join 0 none t'.lines = (join 0 none t.lines).map (renumbered renumber)) :
    ofText t' = (ofText t).map (renumbered renumber) := by
  rw [ofText, ofText, h, List.map_map, List.filter_map, List.filter_map, List.map_map]
  rfl

theorem join_succ (n : Nat) (pending : Option Text) (ls : List Text) :
    join (n + 1) pending ls = (join n pending ls).map (renumbered (· + 1)) := by
  induction ls generalizing n pending with
  | nil => cases pending <;> rfl
  | cons physical rest ih =>
    rw [join, join]
    split
    · exact ih (n + 1) _
    · rw [List.map_cons, ← ih]
      rfl

theorem le_number_of_mem_join {n : Nat} {pending : Option Text} {ls : List Text} {l : LogicalLine}
    (h : l ∈ join n pending ls) : n ≤ l.number := by
  induction ls generalizing n pending with
  | nil =>
    cases pending with
    | none => cases h
    | some text =>
      obtain rfl := List.mem_singleton.mp h
      exact Nat.le_refl n
  | cons physical rest ih =>
    rw [join] at h
    split at h
    · exact Nat.le_of_succ_le (ih h)
    · obtain rfl | h := List.mem_cons.mp h
      · exact Nat.le_succ n
      · exact Nat.le_of_succ_le (ih h)

theorem lt_number_of_mem_join {n : Nat} {pending : Option Text} {physical : Text}
    {rest : List Text} {l : LogicalLine} (h : l ∈ join n pending (physical :: rest)) :
    n < l.number := by
  rw [join] at h
  split at h
  · exact le_number_of_mem_join h
  · obtain rfl | h := List.mem_cons.mp h
    · exact Nat.lt_succ_self n
    · exact le_number_of_mem_join h

theorem number_le_of_mem_join {n : Nat} {pending : Option Text} {ls : List Text} {l : LogicalLine}
    (h : l ∈ join n pending ls) : l.number ≤ n + ls.length := by
  induction ls generalizing n pending with
  | nil =>
    cases pending with
    | none => cases h
    | some text =>
      obtain rfl := List.mem_singleton.mp h
      exact Nat.le_refl n
  | cons physical rest ih =>
    rw [List.length_cons]
    rw [join] at h
    split at h
    · exact Nat.le_trans (ih h) (by omega)
    · obtain rfl | h := List.mem_cons.mp h
      · show n + 1 ≤ _
        omega
      · exact Nat.le_trans (ih h) (by omega)

/-! ## Continued lines -/

/-- The numbers of lines where one more line stands behind the first `count` ones. -/
def raise (count n : Nat) : Nat := if count < n then n + 1 else n

theorem map_raise_of_le {count : Nat} {ls : List LogicalLine} (h : ∀ l ∈ ls, l.number ≤ count) :
    ls.map (renumbered (raise count)) = ls := by
  have hsame : ∀ l ∈ ls, renumbered (raise count) l = id l := by
    intro l hl
    rw [renumbered, raise, if_neg (Nat.not_lt.mpr (h l hl))]
    rfl
  rw [List.map_congr_left hsame, List.map_id]

theorem map_raise_of_lt {count : Nat} {ls : List LogicalLine} (h : ∀ l ∈ ls, count < l.number) :
    ls.map (renumbered (raise count)) = ls.map (renumbered (· + 1)) := by
  refine List.map_congr_left fun l hl => ?_
  rw [renumbered, raise, if_pos (h l hl), renumbered]

/-- The first line of some is only looked at with what is left to it. -/
theorem join_cons_congr {pending pending' : Option Text} {physical physical' : Text}
    (h : pending.getD [] ++ physical.trim = pending'.getD [] ++ physical'.trim) (n : Nat)
    (rest : List Text) :
    join n pending (physical :: rest) = join n pending' (physical' :: rest) := by
  rw [join, join, h]

/-- A line in two parts that meet at signs may as well be continued between them, on a line that
begins with blanks. -/
theorem join_cons_continued {left blanks right : Text} {c d : Char}
    (hleft : left.getLast? = some c) (hc : isBlank c = false) (hright : right.head? = some d)
    (hd : isBlank d = false) (hblanks : ∀ c ∈ blanks, isBlank c = true) (n : Nat)
    (pending : Option Text) (rest : List Text) :
    join n pending ((left ++ ['\\']) :: (blanks ++ right) :: rest)
      = (join n pending ((left ++ right) :: rest)).map (renumbered (· + 1)) := by
  have hfirst : (left ++ ['\\']).trim = left.trimStart ++ ['\\'] :=
    trim_append hleft hc rfl rfl
  have hlast : (pending.getD [] ++ (left ++ ['\\']).trim).getLast? = some '\\' := by
    rw [hfirst, ← List.append_assoc, List.getLast?_concat]
  have hpending : (pending.getD [] ++ (left ++ ['\\']).trim).dropLast
      = pending.getD [] ++ left.trimStart := by
    rw [hfirst, ← List.append_assoc, List.dropLast_concat]
  -- The further line is read with this one pending, which is the line in one a number further on.
  rw [join]
  simp only [if_pos hlast, hpending]
  rw [← join_succ]
  apply join_cons_congr
  rw [trim_blanks_append hblanks, trim_append hleft hc hright hd, Option.getD_some,
    List.append_assoc]

end LogicalLine

/-- A place in a line of a text where the line may be continued, between two characters that are no
blanks, and the blanks that the further line begins with. -/
structure Continuation where
  before : Text
  after : Text
  blanks : Text := []
  last : ∃ c, before.getLast? = some c ∧ Text.isBlank c = false
  first : ∃ c, after.head? = some c ∧ Text.isBlank c = false
  blank : ∀ c ∈ blanks, c = ' ' ∨ c = '\t'

namespace Continuation

open LogicalLine

/-- The text with its line in one. -/
def text (c : Continuation) : Text := c.before ++ c.after

/-- The text with its line continued on a further one. -/
def continued (c : Continuation) : Text :=
  c.before ++ '\\' :: '\n' :: (c.blanks ++ c.after)

/-- The numbers of the lines where this one is continued: it and the lines behind it stand one line
further down. -/
def renumber (c : Continuation) : Nat → Nat := raise (c.before.count '\n')

/-- The lines of a text with a line in one, and with it continued. -/
theorem exists_lines (c : Continuation) : ∃ (front : List Text) (left right : Text)
    (back : List Text), front.length = c.before.count '\n'
      ∧ (∃ d, left.getLast? = some d ∧ Text.isBlank d = false)
      ∧ (∃ d, right.head? = some d ∧ Text.isBlank d = false)
      ∧ c.text.lines = front ++ (left ++ right) :: back
      ∧ c.continued.lines = front ++ (left ++ ['\\']) :: (c.blanks ++ right) :: back := by
  obtain ⟨d, hd, hsign⟩ := c.last
  obtain ⟨e, he, hsign'⟩ := c.first
  obtain ⟨front, left, hbefore, hfront, hleft, hcount⟩ := Text.exists_eq_unlines_append c.before
  obtain ⟨right, back, hright, hlines⟩ := Text.exists_lines_append c.after
  have hlast : left.getLast? = some d := Text.getLast?_of_unlines_append (hbefore ▸ hd) hsign
  have hfirst : right.head? = some e := by
    rw [hright, he]
    rw [he]
    rintro ⟨⟩
    cases hsign'
  have hne : ∀ lead : Text, lead ++ right ≠ [] := by
    intro lead hnil
    rw [(List.append_eq_nil_iff.mp hnil).2] at hfirst
    cases hfirst
  have hblanks : '\n' ∉ c.blanks := by
    intro hmem
    rcases c.blank _ hmem with h | h
    · cases h
    · cases h
  refine ⟨front, left, right, back, hcount, ⟨d, hlast, hsign⟩, ⟨e, hfirst, hsign'⟩, ?_, ?_⟩
  · rw [text, hbefore, List.append_assoc, Text.lines_unlines_append hfront,
      hlines left hleft (hne _)]
  · have hescaped : '\n' ∉ left ++ ['\\'] := List.not_mem_append hleft (by decide)
    have hsplit : left ++ '\\' :: '\n' :: (c.blanks ++ c.after)
        = left ++ ['\\'] ++ '\n' :: (c.blanks ++ c.after) := by simp
    rw [continued, hbefore, List.append_assoc, Text.lines_unlines_append hfront, hsplit,
      Text.lines_append_newline hescaped, hlines c.blanks hblanks (hne _)]

/-- The logical lines are the same where a line is continued, apart from their numbers. -/
theorem join_continued (c : Continuation) :
    join 0 none c.continued.lines = (join 0 none c.text.lines).map (renumbered c.renumber) := by
  obtain ⟨front, left, right, back, hcount, ⟨d, hleft, hd⟩, ⟨e, hright, he⟩, htext, hcontinued⟩ :=
    c.exists_lines
  have hblanks : ∀ b ∈ c.blanks, Text.isBlank b = true := by
    intro b hb
    rcases c.blank b hb with rfl | rfl
    · rfl
    · rfl
  obtain ⟨ended, hended⟩ := exists_join_append front 0 none
  have hbefore : ∀ l ∈ ended, l.number ≤ front.length := by
    intro l hl
    have hmem : l ∈ join 0 none front := by
      rw [← List.append_nil front, hended]
      exact List.mem_append_left _ hl
    rw [← Nat.zero_add front.length]
    exact number_le_of_mem_join hmem
  have hbehind : ∀ l ∈ join (0 + front.length) (pendingAfter none front) ((left ++ right) :: back),
      front.length < l.number := by
    intro l hl
    rw [Nat.zero_add] at hl
    exact lt_number_of_mem_join hl
  rw [htext, hcontinued, hended, hended, join_cons_continued hleft hd hright he hblanks,
    List.map_append, renumber, ← hcount, map_raise_of_le hbefore, map_raise_of_lt hbehind]

/-- The lines of a text are read the same where a line is continued, apart from their numbers. -/
theorem ofText_continued (c : Continuation) :
    ofText c.continued = (ofText c.text).map (renumbered c.renumber) :=
  ofText_renumbered c.join_continued

end Continuation

/-- Whether a text comes from another one when lines are continued, any number of times, and how the
lines are numbered then. -/
inductive Continues : (renumber : Nat → Nat) → (text continued : Text) → Prop
  | refl (text : Text) : Continues id text text
  | continued {renumber : Nat → Nat} {text : Text} (c : Continuation)
      (before : Continues renumber text c.text) :
      Continues (c.renumber ∘ renumber) text c.continued

/-- The logical lines are the same however often lines are continued. -/
theorem Continues.ofText {renumber : Nat → Nat} {text continued : Text}
    (h : Continues renumber text continued) :
    LogicalLine.ofText continued
      = (LogicalLine.ofText text).map (LogicalLine.renumbered renumber) := by
  induction h with
  | refl text => exact (List.map_id _).symm
  | continued c _ ih =>
    rw [c.ofText_continued, ih, List.map_map]
    rfl

end WorkflowControl
