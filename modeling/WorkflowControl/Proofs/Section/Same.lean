import WorkflowControl.Proofs.Document.Arrangement

/-!
Trees that hold the same. What one of them has at a place, the other has there too: a section that
holds the same (`same_at`), and so every scalar and every child (`same_scalar`, `same_child`). An
arrangement of a tree holds the same as the tree (`same_arranged`).
-/

namespace WorkflowControl

namespace Section

theorem sameEntries_iff {entries others : Entries Node} :
    Node.sameEntries entries others = true
      ↔ ∀ key node, (key, node) ∈ entries →
          ∃ other, others.get? key = some other ∧ node.same other = true := by
  induction entries with
  | nil => simp [Node.sameEntries]
  | cons e rest ih =>
    obtain ⟨k, n⟩ := e
    rw [Node.sameEntries, Bool.and_eq_true, ih]
    constructor
    · intro ⟨hfirst, hrest⟩ key node hmem
      rcases List.mem_cons.mp hmem with heq | hmem
      · obtain ⟨rfl, rfl⟩ := Prod.mk.inj heq
        cases hget : others.get? key with
        | none => rw [hget] at hfirst; cases hfirst
        | some other =>
          rw [hget] at hfirst
          exact ⟨other, rfl, hfirst⟩
      · exact hrest key node hmem
    · intro h
      refine ⟨?_, fun key node hmem => h key node (List.mem_cons_of_mem _ hmem)⟩
      obtain ⟨other, hget, hsame⟩ := h k n (by simp)
      rw [hget]
      exact hsame

theorem same_iff {s t : Section} :
    s.same t = true
      ↔ s.entries.length = t.entries.length ∧ ∀ key node, (key, node) ∈ s.entries →
          ∃ other, t.get? key = some other ∧ node.same other = true := by
  rw [same, toNode, toNode, Node.same]
  simp only [Bool.and_eq_true, beq_iff_eq, sameEntries_iff]
  rfl

theorem same_scalar {s t : Section} {key value : Text} (h : s.same t = true)
    (hs : s.getScalar? key = some value) : t.getScalar? key = some value := by
  have hmem := Entries.mem_of_get? (getScalar?_eq_some_iff.mp hs)
  obtain ⟨other, hget, hsame⟩ := (same_iff.mp h).2 key _ hmem
  rw [Node.same, beq_iff_eq] at hsame
  rw [getScalar?, hget, Option.bind_some, hsame]

theorem same_child {s t child : Section} {key : Text} (h : s.same t = true)
    (hs : s.getSection? key = some child) :
    ∃ other, t.getSection? key = some other ∧ child.same other = true := by
  have hmem := Entries.mem_of_get? (getSection?_eq_some_iff.mp hs)
  obtain ⟨other, hget, hsame⟩ := (same_iff.mp h).2 key _ hmem
  cases other with
  | scalar value => rw [toNode, Node.same] at hsame; cases hsame
  | subsection mode entries =>
    exact ⟨⟨mode, entries⟩, getSection?_eq_some_iff.mpr hget, hsame⟩

theorem same_at {s t u : Section} {path : List Text} (h : s.same t = true)
    (hs : s.at? path = some u) : ∃ v, t.at? path = some v ∧ u.same v = true := by
  induction path generalizing s t with
  | nil =>
    obtain rfl := Option.some.inj hs
    exact ⟨t, rfl, h⟩
  | cons key path ih =>
    rw [at?_cons] at hs
    obtain ⟨child, hchild, hs⟩ := Option.bind_eq_some_iff.mp hs
    obtain ⟨other, hother, hsame⟩ := same_child h hchild
    rw [at?_cons, hother]
    exact ih hsame hs

theorem same_arranged {rule : Rule} {own : Option Text} {s : Section} (h : s.Follows rule own)
    (sort : Bool) : s.same (s.arranged sort) = true := by
  induction s using induct generalizing own sort with
  | step s ih =>
    have hlength : s.entries.length = (s.arranged sort).entries.length := by
      rw [entries_arranged, List.length_map, (Node.inOrder_perm sort s.entries).length_eq]
    refine same_iff.mpr ⟨hlength, fun key node hmem => ?_⟩
    have hget := (Entries.get?_eq_some_iff h.obeys.nodup).mpr hmem
    refine ⟨node.arranged sort key, ?_, ?_⟩
    · rw [get?_arranged h.obeys.nodup, get?, hget, Option.map_some]
    · cases node with
      | scalar value => rw [Node.arranged, Node.same]; exact beq_self_eq_true _
      | subsection mode entries =>
        have hchild : s.getSection? key = some ⟨mode, entries⟩ := getSection?_eq_some_iff.mpr hget
        exact ih key ⟨mode, entries⟩ hmem (h.child hchild) (sortsChild sort key)

/-- What a tree has, its arrangement has too. -/
theorem arranged_same {s t : Section} (h : s.same t = true) (sort : Bool) :
    (s.arranged sort).same t = true := by
  induction s using induct generalizing t sort with
  | step s ih =>
    obtain ⟨hlength, hentries⟩ := same_iff.mp h
    refine same_iff.mpr ⟨?_, fun key node hmem => ?_⟩
    · rw [← hlength, entries_arranged, List.length_map, (Node.inOrder_perm sort s.entries).length_eq]
    · rw [entries_arranged] at hmem
      obtain ⟨e, he, heq⟩ := List.mem_map.mp hmem
      obtain ⟨rfl, rfl⟩ := Prod.mk.inj heq
      have hmem := (Node.inOrder_perm sort s.entries).subset he
      obtain ⟨other, hget, hsame⟩ := hentries e.1 e.2 hmem
      refine ⟨other, hget, ?_⟩
      obtain ⟨key, node⟩ := e
      cases node with
      | scalar value => exact hsame
      | subsection mode entries =>
        cases other with
        | scalar value => rw [Node.same] at hsame; cases hsame
        | subsection mode' entries' =>
          exact ih key ⟨mode, entries⟩ hmem (t := ⟨mode', entries'⟩) hsame (sortsChild sort key)

/-- A rule that does not look at modes holds of a tree if it holds of one that has what the tree
has. -/
theorem Follows.of_same {rule base : Rule} {own : Option Text} {s t : Section}
    (hbase : s.Follows base own) (hsame : s.same t = true) (h : t.Follows rule own)
    (hscalar : ∀ mode mode' key value, rule.scalar mode key value → rule.scalar mode' key value)
    (hchild : ∀ own mode mode' key childMode childMode', rule.child own mode key childMode →
      rule.child own mode' key childMode') : s.Follows rule own := by
  intro path u hu
  obtain ⟨v, hv, huv⟩ := same_at hsame hu
  refine ⟨(hbase path u hu).nodup, fun key value hvalue => ?_, fun key child hc => ?_⟩
  · exact hscalar _ _ _ _ ((h path v hv).scalar key value (same_scalar huv hvalue))
  · obtain ⟨other, hother, -⟩ := same_child huv hc
    exact hchild _ _ _ _ _ _ ((h path v hv).child key other hother)

end Section

end WorkflowControl
