import WorkflowControl.Proofs.Document.Reading
import WorkflowControl.Proofs.LineCuts

/-!
What is stored when a line with a key and a value is read, whatever section is open. The line is a
logical line of its own (`ofText_pairLine`), so the pair that it is cut into is written into the
innermost open section and nothing else changes. That it is the pair that the line was written for
depends on the `=` in the value (`readLines_pairLine_iff`): `k =a=b` stores `a=b` under `k`, but
`k=a=b` stores `b` under `k=a`.
-/

namespace WorkflowControl

open Line

variable {key before after value : Text}

/-! ## The logical line -/

namespace Line.IsPairLine

variable (h : IsPairLine key before after value)

theorem pairLine_ne_nil : pairLine key before after value ≠ [] := by
  simp [pairLine]

include h

/-- What is not a part of a pair is not a part of its line. -/
theorem not_mem_pairLine {c : Char} (hkey : c ∉ key) (hvalue : c ∉ value)
    (hsigns : c ≠ ' ' ∧ c ≠ '\t' ∧ c ≠ '=') : c ∉ pairLine key before after value := by
  have hblank : c ∉ before ++ after := by
    intro hmem
    rcases h.blanks c hmem with rfl | rfl
    · exact hsigns.1 rfl
    · exact hsigns.2.1 rfl
  simp only [List.mem_append, not_or] at hblank
  simp [pairLine, hkey, hvalue, hblank, hsigns.2.2]

theorem newline_not_mem : '\n' ∉ pairLine key before after value :=
  h.not_mem_pairLine (fun hmem => absurd (h.word.2 _ hmem) (by decide)) h.value_signs.2 (by decide)

theorem hash_not_mem : '#' ∉ pairLine key before after value :=
  h.not_mem_pairLine h.key_signs.1 h.value_signs.1 (by decide)

theorem trim_pairLine : (pairLine key before after value).trim = pairLine key before after value := by
  refine Text.trim_of_ends h.isBlank_head ?_
  rw [h.getLast_pairLine, ← h.trimmed]
  exact Text.last_trim value

/-- The line is joined to no other one and has no comment. -/
theorem ofText_pairLine :
    LogicalLine.ofText (pairLine key before after value)
      = [⟨1, pairLine key before after value⟩] := by
  have hcomment : LogicalLine.withoutComment (pairLine key before after value)
      = pairLine key before after value := by
    have hescaped := LogicalLine.withoutComment_escapeHash (pairLine key before after value)
    rwa [Text.escapeHash_of_not_mem h.hash_not_mem] at hescaped
  have hjoin : LogicalLine.join 0 none (pairLine key before after value).lines
      = [⟨1, pairLine key before after value⟩] := by
    rw [Text.lines_of_not_mem pairLine_ne_nil h.newline_not_mem]
    simp [LogicalLine.join, h.trim_pairLine, h.getLast_pairLine, h.last]
  simp [LogicalLine.ofText, hjoin, hcomment, h.trim_pairLine, pairLine_ne_nil]

end Line.IsPairLine

/-! ## Reading the line -/

namespace DocumentReader

open ReadState

variable (reader : DocumentReader) (nested : Option TreeReader) (file : Text)

/-- The pair that the line is cut into is written into the innermost open section. -/
theorem exists_readLines_pairLine (h : IsPairLine key before after value) :
    ∃ longer value', classify (pairLine key before after value) = pair longer value'
      ∧ ∀ (st : ReadState) (cur : Section), st.current? = some cur →
        reader.readLines nested file (LogicalLine.ofText (pairLine key before after value)) st
          = pure (st.put (cur.insert longer (.scalar value'))) := by
  obtain ⟨longer, value', -, hclass⟩ := h.exists_classify_eq_pair
  refine ⟨longer, value', hclass, fun st cur hcur => ?_⟩
  rw [h.ofText_pairLine, readLines_cons, readLine_pair hclass hcur, Reading.pure_andThen]
  rfl

/-- Reading a line with a key and a value stores this value under this key, and changes nothing
else, in every open section if and only if there is a blank in front of the `=` or what is behind it
has no other `=` to cut the line at. -/
theorem readLines_pairLine_iff (h : IsPairLine key before after value) :
    (∀ (st : ReadState) (cur : Section), st.current? = some cur →
      reader.readLines nested file (LogicalLine.ofText (pairLine key before after value)) st
        = pure (st.put (cur.insert key (.scalar value))))
      ↔ before ≠ [] ∨ ¬ CutsAgain (after ++ value) := by
  obtain ⟨longer, value', hclass, hread⟩ := exists_readLines_pairLine reader nested file h
  rw [← h.classify_eq_pair_iff, hclass]
  constructor
  · intro hstored
    -- An empty section that keeps the case of its keys shows which pair was stored.
    have hcur : current? { root := { mode := .preserve } } = some { mode := .preserve } := rfl
    have hstate := Except.ok.inj (congrArg Reading.outcome
      ((hread _ _ hcur).symm.trans (hstored _ _ hcur)))
    have hentries : [(longer, Node.scalar value')] = [(key, Node.scalar value)] :=
      congrArg (fun st : ReadState => st.root.entries) hstate
    simpa using hentries
  · intro heq st cur hcur
    obtain ⟨rfl, rfl⟩ := Line.pair.inj heq
    exact hread st cur hcur

/-- A value with an `=` in its first word is stored behind `k =`, and not behind `k=`. -/
theorem not_readLines_pairLine_unspaced :
    let reader : DocumentReader := ⟨{}, {}, fun _ => .error .notFound⟩
    let value : Text := ['a', '=', 'b']
    let Stores := fun (line : Text) => ∀ (st : ReadState) (cur : Section),
      st.current? = some cur → reader.readLines none [] (LogicalLine.ofText line) st
        = pure (st.put (cur.insert ['k'] (.scalar value)))
    Stores (pairLine ['k'] [' '] [] value) ∧ ¬ Stores (pairLine ['k'] [] [] value)
      ∧ (reader.readText [] .fold (pairLine ['k'] [] [] value)).outcome
          = .ok { root := { entries := [(['k', '=', 'a'], .scalar ['b'])] } } := by
  intro reader value Stores
  have hpair : ∀ before : Text, (∀ c ∈ before, c = ' ' ∨ c = '\t') →
      IsPairLine ['k'] before [] value := by
    intro before hbefore
    exact ⟨⟨by decide, by decide⟩, by decide, by simpa using hbefore, by decide, by decide,
      by decide, by decide, by decide⟩
  have hagain : CutsAgain ([] ++ value) := ⟨['a'], [], ['b'], rfl, by decide, by decide, by decide⟩
  have hspaced := readLines_pairLine_iff reader none [] (hpair [' '] (by decide))
  have hunspaced := readLines_pairLine_iff reader none [] (hpair [] (by decide))
  refine ⟨hspaced.mpr (.inl (by decide)), fun hstores => ?_, rfl⟩
  rcases hunspaced.mp hstores with hblank | hnot
  · exact hblank rfl
  · exact hnot hagain

end DocumentReader

end WorkflowControl
