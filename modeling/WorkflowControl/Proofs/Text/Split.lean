import WorkflowControl.Text.Basic

/-!
The pieces of a text between the occurrences of a delimiter. They are those in front of any one of
the occurrences and those behind it (`splitOn_append`), they have no characters but those of the
text, and a change of the characters that keeps the delimiter apart changes them one by one
(`splitOn_map`).
-/

namespace WorkflowControl.Text

variable {delim : Char} {t : Text}

theorem mem_of_mem_splitOn {c : Char} {piece : Text} (h : piece ∈ splitOn delim t)
    (hc : c ∈ piece) : c ∈ t := by
  induction t generalizing piece with
  | nil =>
    obtain rfl := List.mem_singleton.mp h
    exact hc
  | cons d t ih =>
    rw [splitOn] at h
    split at h
    · rcases List.mem_cons.mp h with rfl | h
      · cases hc
      · exact List.mem_cons_of_mem _ (ih h hc)
    · split at h
      · rename_i hnil
        exact absurd hnil (splitOn_ne_nil delim t)
      · rename_i first rest hsplit
        rcases List.mem_cons.mp h with rfl | h
        · rcases List.mem_cons.mp hc with rfl | hc
          · exact List.mem_cons_self
          · refine List.mem_cons_of_mem _ (ih ?_ hc)
            rw [hsplit]
            exact List.mem_cons_self
        · refine List.mem_cons_of_mem _ (ih ?_ hc)
          rw [hsplit]
          exact List.mem_cons_of_mem _ h

theorem splitOn_cons_self (delim : Char) (t : Text) :
    splitOn delim (delim :: t) = [] :: splitOn delim t := by
  rw [splitOn, if_pos rfl]

/-- A character other than the delimiter goes in front of the first piece. -/
theorem splitOn_cons {c : Char} (h : c ≠ delim) (t : Text) :
    ∃ piece pieces, splitOn delim t = piece :: pieces
      ∧ splitOn delim (c :: t) = (c :: piece) :: pieces := by
  obtain ⟨piece, pieces, hsplit⟩ := List.exists_cons_of_ne_nil (splitOn_ne_nil delim t)
  refine ⟨piece, pieces, hsplit, ?_⟩
  rw [splitOn, if_neg h, hsplit]

/-- A text without the delimiter is one piece. -/
theorem splitOn_of_not_mem (h : delim ∉ t) : splitOn delim t = [t] := by
  induction t with
  | nil => rfl
  | cons c t ih =>
    simp only [List.mem_cons, not_or] at h
    simp [splitOn, Ne.symm h.1, ih h.2]

/-- The pieces of a text are those in front of a delimiter in it and those behind it. -/
theorem splitOn_append (delim : Char) (first rest : Text) :
    splitOn delim (first ++ delim :: rest) = splitOn delim first ++ splitOn delim rest := by
  induction first with
  | nil => exact splitOn_cons_self delim rest
  | cons c first ih =>
    by_cases hc : c = delim
    · rw [hc, List.cons_append, splitOn_cons_self, splitOn_cons_self, ih, List.cons_append]
    · obtain ⟨piece, pieces, hfirst, hcons⟩ := splitOn_cons hc first
      rw [hfirst] at ih
      rw [hcons, List.cons_append, splitOn, if_neg hc, ih]
      rfl

/-- What is in front of the first delimiter and what is behind it are told apart by it. -/
theorem append_inj_of_not_mem {first first' rest rest' : Text} (h : delim ∉ first)
    (h' : delim ∉ first') (heq : first ++ delim :: rest = first' ++ delim :: rest') :
    first = first' ∧ rest = rest' := by
  have hsplit := congrArg (splitOn delim) heq
  rw [splitOn_append, splitOn_append, splitOn_of_not_mem h, splitOn_of_not_mem h'] at hsplit
  obtain rfl : first = first' := (List.cons.inj hsplit).1
  exact ⟨rfl, (List.cons.inj (List.append_cancel_left heq)).2⟩

theorem splitOn_map {f : Char → Char} (h : ∀ c, f c = delim ↔ c = delim) (t : Text) :
    splitOn delim (t.map f) = (splitOn delim t).map fun piece => piece.map f := by
  induction t with
  | nil => rfl
  | cons c t ih =>
    by_cases hc : c = delim
    · rw [List.map_cons, (h c).mpr hc, splitOn_cons_self, ih, hc, splitOn_cons_self]
      rfl
    · obtain ⟨piece, pieces, hsplit, hcons⟩ := splitOn_cons hc t
      rw [hsplit] at ih
      rw [hcons, List.map_cons, splitOn, if_neg (mt (h c).mp hc), ih]
      rfl

/-- A text with the delimiter has a last one. -/
theorem exists_last_of_mem (h : delim ∈ t) :
    ∃ start last, t = start ++ delim :: last ∧ delim ∉ last := by
  obtain ⟨last, start, hreverse, hlast⟩ := List.eq_append_cons_of_mem (List.mem_reverse.mpr h)
  refine ⟨start.reverse, last.reverse, ?_, mt List.mem_reverse.mp hlast⟩
  have heq := congrArg List.reverse hreverse
  rw [List.reverse_reverse, List.reverse_append, List.reverse_cons, List.append_assoc] at heq
  exact heq

end WorkflowControl.Text
