import WorkflowControl.Proofs.Document.Comments

/-!
The physical lines that a logical line is made of. In a text that does not end within a logical
line, the physical lines of each stand between whole logical lines (`exists_spans`), and the number
of the line is that of the last of them. Whatever else a text has behind these lines, it has the
line itself and the ones before it (`Spans.ofText_eq`).
-/

namespace WorkflowControl.LogicalLine

/-- Whether the physical lines behind the first `count` ones are those of one logical line. -/
structure Spans (count : Nat) (physical : List Text) (l : LogicalLine) : Prop where
  complete : Complete physical
  single : (join count none physical).length = 1
  line : uncommented (join count none physical) = [l]
  number : l.number = count + physical.length

theorem pendingAfter_append (pending : Option Text) (ls more : List Text) :
    pendingAfter pending (ls ++ more) = pendingAfter (pendingAfter pending ls) more := by
  induction ls generalizing pending with
  | nil => rfl
  | cons physical rest ih => exact ih _

theorem Complete.append {ls more : List Text} (h : Complete ls) (hmore : Complete more) :
    Complete (ls ++ more) := by
  rw [Complete, pendingAfter_append, h]
  exact hmore

theorem Complete.join_append {ls : List Text} (h : Complete ls) (n : Nat) (more : List Text) :
    join n none (ls ++ more) = join n none ls ++ join (n + ls.length) none more :=
  join_append_of_pendingAfter h n more

/-- The first logical line ends with some physical line, and the others begin behind it. -/
theorem exists_first {ls : List Text} {n : Nat} {pending : Option Text} {first : LogicalLine}
    {rest : List LogicalLine} (hcomplete : pendingAfter pending ls = none)
    (h : join n pending ls = first :: rest) :
    ∃ physical back, ls = physical ++ back ∧ pendingAfter pending physical = none
      ∧ join n pending physical = [first] ∧ first.number = n + physical.length
      ∧ Complete back ∧ join (n + physical.length) none back = rest := by
  induction ls generalizing n pending with
  | nil =>
    obtain rfl : pending = none := hcomplete
    cases h
  | cons line ls ih =>
    rw [pendingAfter] at hcomplete
    rw [join] at h
    by_cases hlast : (pending.getD [] ++ line.trim).getLast? = some '\\'
    · -- The first logical line goes on, with what it has so far as the pending text.
      simp only [if_pos hlast] at h hcomplete
      obtain ⟨physical, back, rfl, hended, hfirst, hnumber, hback, hrest⟩ := ih hcomplete h
      refine ⟨line :: physical, back, rfl, ?_, ?_, ?_, hback, ?_⟩
      · rw [pendingAfter]
        simp only [if_pos hlast]
        exact hended
      · rw [join]
        simp only [if_pos hlast]
        exact hfirst
      · rw [hnumber, List.length_cons, Nat.add_assoc, Nat.add_comm 1]
      · rw [List.length_cons, Nat.add_comm physical.length, ← Nat.add_assoc]
        exact hrest
    · simp only [if_neg hlast] at h hcomplete
      obtain ⟨rfl, hrest⟩ := List.cons.inj h
      refine ⟨[line], ls, rfl, ?_, ?_, rfl, hcomplete, hrest⟩
      · rw [pendingAfter, if_neg hlast]
        rfl
      · rw [join, if_neg hlast]
        rfl

/-- A line among the logical lines of a text has its physical lines between those of the others. -/
theorem exists_physical {ls : List Text} {n : Nat} {before after : List LogicalLine}
    {line : LogicalLine} (hcomplete : Complete ls)
    (h : join n none ls = before ++ line :: after) :
    ∃ front physical back, ls = front ++ (physical ++ back) ∧ Complete front ∧ Complete physical
      ∧ join n none front = before ∧ join (n + front.length) none physical = [line]
      ∧ line.number = n + front.length + physical.length := by
  induction before generalizing n ls with
  | nil =>
    obtain ⟨physical, back, rfl, hended, hfirst, hnumber, -, -⟩ := exists_first hcomplete h
    exact ⟨[], physical, back, rfl, rfl, hended, rfl, hfirst, hnumber⟩
  | cons first before ih =>
    obtain ⟨lead, rest, rfl, hended, hfirst, -, hcomplete, hrest⟩ := exists_first hcomplete h
    obtain ⟨front, physical, back, rfl, hfront, hphysical, hbefore, hline, hnumber⟩ :=
      ih hcomplete hrest
    have hlead : Complete lead := hended
    refine ⟨lead ++ front, physical, back, ?_, hlead.append hfront, hphysical, ?_, ?_, ?_⟩
    · rw [List.append_assoc]
    · rw [hlead.join_append, hfirst, hbefore]
      rfl
    · rw [List.length_append, ← Nat.add_assoc]
      exact hline
    · rw [hnumber, List.length_append, Nat.add_assoc n]

/-- A line that is left when comments are taken off comes from one of the lines. -/
theorem exists_of_uncommented {ls before after : List LogicalLine} {l : LogicalLine}
    (h : uncommented ls = before ++ l :: after) : ∃ ended line rest, ls = ended ++ line :: rest
      ∧ uncommented ended = before ∧ uncommented [line] = [l] ∧ line.number = l.number := by
  obtain ⟨kept, others, hmap, hbefore, hafter⟩ := List.filter_eq_append_iff.mp h
  obtain ⟨blank, rest, rfl, hblank, hl, -⟩ := List.filter_eq_cons_iff.mp hafter
  obtain ⟨ended, others, rfl, rfl, hothers⟩ := List.map_eq_append_iff.mp hmap
  obtain ⟨skipped, lines, rfl, rfl, hlines⟩ := List.map_eq_append_iff.mp hothers
  obtain ⟨line, rest, rfl, rfl, -⟩ := List.map_eq_cons_iff.mp hlines
  refine ⟨ended ++ skipped, line, rest, by simp, ?_, ?_, rfl⟩
  · have hskipped : uncommented skipped = [] := List.filter_eq_nil_iff.mpr hblank
    rw [uncommented_append, hskipped, List.append_nil]
    exact hbefore
  · exact List.filter_eq_self.mpr (List.forall_mem_singleton.mpr hl)

/-- Each line of a text is made of physical lines of its own, behind those of the lines before
it. -/
theorem exists_spans {text : Text} (hcomplete : Complete text.lines)
    {before after : List LogicalLine} {l : LogicalLine} (h : ofText text = before ++ l :: after) :
    ∃ front physical, front ++ physical <+: text.lines ∧ Complete front
      ∧ uncommented (join 0 none front) = before ∧ Spans front.length physical l := by
  rw [ofText_eq_uncommented] at h
  obtain ⟨ended, line, rest, hjoin, hbefore, hline, hnumber⟩ := exists_of_uncommented h
  obtain ⟨front, physical, back, htext, hfront, hphysical, hended, hfirst, hlast⟩ :=
    exists_physical hcomplete hjoin
  rw [Nat.zero_add] at hfirst hlast
  refine ⟨front, physical, ?_, hfront, by rw [hended, hbefore], hphysical, ?_, ?_, ?_⟩
  · rw [htext, ← List.append_assoc]
    exact List.prefix_append _ back
  · rw [hfirst]
    rfl
  · rw [hfirst, hline]
  · rw [← hnumber, hlast]

/-- A text that begins with the physical lines of a line, and of those before it, has these
lines. -/
theorem Spans.ofText_eq {front physical : List Text} {l : LogicalLine} (hfront : Complete front)
    (h : Spans front.length physical l) {text : Text} (htext : front ++ physical <+: text.lines) :
    ∃ after, ofText text = uncommented (join 0 none front) ++ l :: after := by
  obtain ⟨back, hback⟩ := htext
  refine ⟨uncommented (join (0 + (front ++ physical).length) none back), ?_⟩
  rw [ofText_eq_uncommented, ← hback, (hfront.append h.complete).join_append, hfront.join_append,
    uncommented_append, uncommented_append, Nat.zero_add, h.line, List.append_assoc]
  rfl

theorem texts_uncommented (ls : List Text) :
    (uncommented (join 0 none ls)).map LogicalLine.text = textsOf ls := by
  rw [uncommented, textsOf, List.map_map, List.filter_map, List.filter_map, List.map_map]
  rfl

end WorkflowControl.LogicalLine
