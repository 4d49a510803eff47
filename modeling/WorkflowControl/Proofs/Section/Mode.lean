import WorkflowControl.Proofs.Section.Merge

/-!
The key case of the sections of a tree, and where it comes from. A section that is made inside
another one has the mode that its parent and its name give it, whether a tag opens it or a merge
makes it. As a merge leaves the modes of the tree that is merged in behind, it keeps a tree to this
rule whatever is merged into it (`Follows.merge_anything`). In a tree that is kept to the rule the
mode of a section can be told from its path (`modesByPath_of_follows`).
-/

namespace WorkflowControl

theorem KeyCase.ofChild_eq_preserve_iff {mode : KeyCase} {name : Text} :
    mode.ofChild name = preserve ↔ mode = preserve ∨ name = cmdline ∨ name = replace := by
  unfold ofChild
  split
  · rename_i h
    exact iff_of_true rfl h
  · rename_i h
    exact iff_of_false nofun h

namespace Section

/-- What is asked of a tree in which every child section has the mode that it gets where it stands.
-/
def conforming : Rule where
  scalar _ _ _ := True
  child _ mode key childMode := childMode = mode.ofChild key

/-- Whether the sections that preserve case are those on a path through a `cmdline` or a `replace`
section, or all of them if the given mode is to preserve it. -/
def ModesByPath (mode : KeyCase) (s : Section) : Prop :=
  ∀ path t, s.at? path = some t →
    (t.mode = .preserve ↔ mode = .preserve ∨ KeyCase.cmdline ∈ path ∨ KeyCase.replace ∈ path)

variable {s added below : Section} {own : Option Text} {key : Text}

theorem modesByPath_of_follows (h : s.Follows conforming own) : s.ModesByPath s.mode := by
  intro path t hat
  induction path generalizing s own with
  | nil =>
    obtain rfl := Option.some.inj hat
    simp
  | cons key path ih =>
    rw [at?_cons] at hat
    obtain ⟨child, hchild, hat⟩ := Option.bind_eq_some_iff.mp hat
    have hmode : child.mode = s.mode.ofChild key := h.obeys.child key child hchild
    have hbelow := ih (h.child hchild) hat
    rw [hmode, KeyCase.ofChild_eq_preserve_iff] at hbelow
    rw [hbelow, List.mem_cons, List.mem_cons, @eq_comm _ key, @eq_comm _ key]
    simp only [or_assoc, or_left_comm]

/-- What is merged under a key is merged into a section with the mode of a child. -/
theorem mode_base {s : Section} {own : Option Text} (h : s.Follows conforming own) (key : Text) :
    (s.base key).mode = s.mode.ofChild key := by
  unfold Section.base
  cases hchild : s.getSection? key with
  | none => rfl
  | some child => exact h.obeys.child key child hchild

/-- What is merged at a place has the mode of what it is merged into. -/
theorem mode_under {s t below : Section} {own own' : Option Text} (hs : s.Follows conforming own)
    (ht : t.Follows conforming own') (hmode : s.mode = t.mode) {path : List Text}
    (hat : t.at? path = some below) : (s.under path).mode = below.mode := by
  induction path generalizing s t own own' with
  | nil =>
    obtain rfl := Option.some.inj hat
    exact hmode
  | cons key path ih =>
    rw [at?_cons] at hat
    obtain ⟨child, hchild, hat⟩ := Option.bind_eq_some_iff.mp hat
    have hchildMode : child.mode = t.mode.ofChild key := ht.obeys.child key child hchild
    refine ih (hs.base key) (ht.child hchild) ?_ hat
    rw [mode_base hs, hchildMode, hmode]

/-- Merging one entry keeps to the rule if merging what is below it does. -/
theorem Follows.put_mergedOver {node : Node} (h : s.Follows conforming own)
    (hbelow : ∀ below : Section, node = below.toNode →
      ((s.base key).merge below).Follows conforming (some key)) :
    Follows conforming own { s with entries := s.entries.put key (s.mergedOver key node) } := by
  cases node with
  | scalar value => exact h.put_scalar trivial
  | subsection mode entries =>
    have hnode : s.mergedOver key (.subsection mode entries)
        = ((s.base key).merge ⟨mode, entries⟩).toNode := mergedOver_toNode s ⟨mode, entries⟩ key
    rw [hnode]
    exact h.put_section (mode_base h key) (hbelow ⟨mode, entries⟩ rfl)

/-- A tree goes on to have the modes of its places when any tree is merged into it. -/
theorem Follows.merge_anything (h : s.Follows conforming own) (added : Section) :
    (s.merge added).Follows conforming own := by
  induction added using induct generalizing s own with
  | step added ih =>
    -- The entries are merged one by one, into what the ones before have left.
    have hentries : ∀ (entries : Entries Node), (∀ e ∈ entries, e ∈ added.entries) →
        ∀ {s : Section}, s.Follows conforming own →
          Follows conforming own ⟨s.mode, Node.mergeEntries s.mode s.entries entries⟩ := by
      intro entries
      induction entries with
      | nil =>
        intro _ s hs
        exact hs
      | cons e rest ihrest =>
        intro hmem s hs
        obtain ⟨key, node⟩ := e
        have hput : Follows conforming own
            { s with entries := s.entries.put key (s.mergedOver key node) } :=
          hs.put_mergedOver fun below hbelow =>
            ih key below (hbelow ▸ hmem _ List.mem_cons_self) (hs.base key)
        exact ihrest (fun e he => hmem e (List.mem_cons_of_mem _ he)) hput
    exact hentries added.entries (fun _ he => he) h

end Section

end WorkflowControl
