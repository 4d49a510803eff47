import Mathlib.Data.List.Perm.Subperm
import WorkflowControl.Proofs.Section.Merge
import WorkflowControl.Proofs.Section.Same

/-!
Sorted printing is canonical. Two trees that hold the same have the same keys in every section, in
any order; where entries are sorted, the order is that of the keys, so it is one order for both
(`keys_sortEntries_eq`). Where entries are not sorted, which is in the `cmdline` sections and below
them, the trees have to agree in their order. Then they are printed as the same text
(`print_sorted_eq`).

The step goes from the children of a section to the section, for both ways to print it
(`joinPrinted_eq`): a `cmdline` child of a sorted section is printed unsorted, and from there on
everything is.
-/

namespace WorkflowControl

namespace Text

theorem le_antisymm {a b : Text} (hab : le a b = true) (hba : le b a = true) : a = b :=
  List.le_antisymm (List.not_lt.mp (le_iff.mp hab)) (List.not_lt.mp (le_iff.mp hba))

end Text

namespace Node

variable {α β : Type}

/-- The order of sorted entries follows from their keys. -/
theorem keys_sortEntries_eq {entries : Entries α} {others : Entries β}
    (h : entries.keys.Perm others.keys) :
    (sortEntries entries).keys = (sortEntries others).keys := by
  have hsorted : ∀ {γ : Type} (es : Entries γ),
      (sortEntries es).keys.Pairwise fun a b => Text.le a b = true :=
    fun es => List.pairwise_map.mpr (sortEntries_sorted es)
  have hperm : (sortEntries entries).keys.Perm (sortEntries others).keys :=
    (((sortEntries_perm entries).map Prod.fst).trans h).trans
      ((sortEntries_perm others).map Prod.fst).symm
  exact hperm.eq_of_pairwise (fun a b _ _ hab hba => Text.le_antisymm hab hba)
    (hsorted entries) (hsorted others)

theorem keys_inOrder_eq {sort : Bool} {entries : Entries α} {others : Entries β}
    (h : entries.keys.Perm others.keys) (horder : sort = false → entries.keys = others.keys) :
    (inOrder sort entries).keys = (inOrder sort others).keys := by
  cases sort with
  | false => exact horder rfl
  | true => exact keys_sortEntries_eq h

theorem keys_printEntries (sort : Bool) (indent level : Nat) (entries : Entries Node) :
    (printEntries sort indent level entries).keys = entries.keys := by
  rw [printEntries_eq_map, Entries.keys, List.map_map]
  rfl

theorem get?_printEntries (sort : Bool) (indent level : Nat) (entries : Entries Node) (key : Text) :
    (printEntries sort indent level entries).get? key
      = (entries.get? key).map (printEntry sort indent level key) := by
  induction entries with
  | nil => rfl
  | cons e rest ih =>
    obtain ⟨k, node⟩ := e
    rw [printEntries, Entries.get?, Entries.get?]
    by_cases h : k = key
    · rw [if_pos h, if_pos h, h]
      rfl
    · rw [if_neg h, if_neg h]
      exact ih

end Node

namespace Section

/-- Whether two trees have their keys in the same order in every section that both have and that is
not sorted when they are printed. -/
def AgreeUnsorted (sort : Bool) (s t : Section) : Prop :=
  ∀ path u v, sortsAt sort path = false → s.at? path = some u → t.at? path = some v →
    u.keys = v.keys

variable {s t : Section} {sort : Bool}

theorem AgreeUnsorted.child {below other : Section} {key : Text} (h : AgreeUnsorted sort s t)
    (hs : s.getSection? key = some below) (ht : t.getSection? key = some other) :
    AgreeUnsorted (sortsChild sort key) below other := by
  intro path u v hsorts hu hv
  refine h (key :: path) u v ?_ ?_ ?_
  · rw [sortsAt_cons]
    exact hsorts
  · rw [at?_cons, hs]
    exact hu
  · rw [at?_cons, ht]
    exact hv

/-- Trees that hold the same have the same keys. -/
theorem keys_perm_of_same (hs : s.Distinct) (h : s.same t = true) : s.keys.Perm t.keys := by
  obtain ⟨hlength, hentries⟩ := same_iff.mp h
  have hsubset : s.keys ⊆ t.keys := by
    intro key hkey
    obtain ⟨⟨k, node⟩, hmem, rfl⟩ := List.mem_map.mp hkey
    obtain ⟨other, hget, -⟩ := hentries k node hmem
    exact Entries.mem_keys_of_mem (Entries.mem_of_get? hget)
  have hshort : t.keys.length ≤ s.keys.length := by
    rw [keys, keys, Entries.keys, Entries.keys, List.length_map, List.length_map]
    exact Nat.le_of_eq hlength.symm
  exact (List.subperm_of_subset hs.nodup hsubset).perm_of_length_le hshort

/-- The printed entries of a tree, in any order, are those of its keys. -/
theorem get?_inOrder_printEntries (hs : s.Distinct) (indent level : Nat) (key : Text) :
    (Node.inOrder sort (Node.printEntries sort indent level s.entries)).get? key
      = (s.get? key).map (Node.printEntry sort indent level key) := by
  have hnodup : (Node.printEntries sort indent level s.entries).keys.Nodup := by
    rw [Node.keys_printEntries]
    exact hs.nodup
  rw [Entries.get?_perm (Node.inOrder_perm sort _).symm hnodup, Node.get?_printEntries]
  rfl

/-- Trees with the same keys, whose entries are printed alike, have the same printed entries. -/
theorem inOrder_printEntries_eq (hs : s.Distinct) (ht : t.Distinct) (hkeys : s.keys.Perm t.keys)
    (horder : sort = false → s.keys = t.keys) {indent level : Nat}
    (hentry : ∀ key, (s.get? key).map (Node.printEntry sort indent level key)
      = (t.get? key).map (Node.printEntry sort indent level key)) :
    Node.inOrder sort (Node.printEntries sort indent level s.entries)
      = Node.inOrder sort (Node.printEntries sort indent level t.entries) := by
  refine Entries.eq_of_keys ?_ ?_ ?_
  · refine ((Node.inOrder_perm sort _).map Prod.fst).nodup_iff.mpr ?_
    show (Node.printEntries sort indent level t.entries).keys.Nodup
    rw [Node.keys_printEntries]
    exact ht.nodup
  · apply Node.keys_inOrder_eq
    · rw [Node.keys_printEntries, Node.keys_printEntries]
      exact hkeys
    · rw [Node.keys_printEntries, Node.keys_printEntries]
      exact horder
  · intro key
    rw [get?_inOrder_printEntries hs, get?_inOrder_printEntries ht]
    exact hentry key

/-- Trees that hold the same are printed as the same text, if they agree in the order of the entries
that are not sorted. -/
theorem joinPrinted_eq (hs : s.Distinct) (ht : t.Distinct) (hsame : s.same t = true)
    (horder : AgreeUnsorted sort s t) (indent level : Nat) :
    Node.joinPrinted sort (Node.printEntries sort indent level s.entries)
      = Node.joinPrinted sort (Node.printEntries sort indent level t.entries) := by
  induction s using induct generalizing t sort level with
  | step s ih =>
    have hkeys : s.keys.Perm t.keys := keys_perm_of_same hs hsame
    have hunsorted : sort = false → s.keys = t.keys := by
      rintro rfl
      exact horder [] s t rfl rfl rfl
    have hentry : ∀ key, (s.get? key).map (Node.printEntry sort indent level key)
        = (t.get? key).map (Node.printEntry sort indent level key) := by
      intro key
      cases hnode : s.get? key with
      | none =>
        have hnone : t.get? key = none :=
          Entries.get?_eq_none_iff.mpr fun hmem =>
            Entries.get?_eq_none_iff.mp hnode (hkeys.mem_iff.mpr hmem)
        rw [hnone]
      | some node =>
        cases node with
        | scalar value =>
          have hvalue := same_scalar hsame (getScalar?_eq_some_iff.mpr hnode)
          rw [getScalar?_eq_some_iff.mp hvalue]
        | subsection mode entries =>
          have hchild : s.getSection? key = some ⟨mode, entries⟩ :=
            getSection?_eq_some_iff.mpr hnode
          obtain ⟨other, hother, hsameChild⟩ := same_child hsame hchild
          -- The child may be printed the other way, which the induction leaves open.
          have hinside := ih key ⟨mode, entries⟩ (Entries.mem_of_get? hnode) (hs.child hchild)
            (ht.child hother) hsameChild (horder.child hchild hother) (level + 1)
          rw [getSection?_eq_some_iff.mp hother, Option.map_some, Option.map_some, toNode,
            Node.printEntry, Node.printEntry]
          rw [sortsChild] at hinside
          simp only [hinside]
    exact congrArg (List.flatMap Prod.snd) (inOrder_printEntries_eq hs ht hkeys hunsorted hentry)

/-- Whether two trees agree in the order of the entries of their `cmdline` sections and of all that
is below these. -/
def SameCommandOrder (s t : Section) : Prop :=
  ∀ path u v, KeyCase.cmdline ∈ path → s.at? path = some u → t.at? path = some v → u.keys = v.keys

end Section

namespace Document

/-- Documents that hold the same, and agree in the order of what is in their `cmdline` sections, are
printed sorted as the same text. Neither the order of their other entries nor the key case of their
sections counts. -/
theorem print_sorted_eq {a b : Document} (ha : a.root.Distinct) (hb : b.root.Distinct)
    (hsame : a.root.same b.root = true) (horder : a.root.SameCommandOrder b.root) (indent : Nat) :
    a.print true indent = b.print true indent := by
  have hunsorted : Section.AgreeUnsorted true a.root b.root := by
    intro path u v hsorts hu hv
    have hmem : KeyCase.cmdline ∈ path := by simpa [Section.sortsAt] using hsorts
    exact horder path u v hmem hu hv
  exact Section.joinPrinted_eq ha hb hsame hunsorted indent 0

/-- The flags of a command with a section in them, whose keys are not in order. -/
def flags : Section :=
  ⟨.preserve, [(['V'], .scalar ['1']), (['i', 'n'], .subsection .preserve [
    (['z'], .scalar ['2']), (['b'], .scalar ['3'])])]⟩

/-- A section with a command, and what stands around both. -/
def commandDocument : Document :=
  { root := ⟨.fold, [
      (['z'], .scalar ['#']),
      (['e'], .subsection .fold [(['x'], .scalar []), (KeyCase.cmdline, flags.toNode)])]⟩ }

/-- The same in another order, but for the flags, and in sections that preserve case. -/
def reorderedDocument : Document :=
  { root := ⟨.preserve, [
      (['e'], .subsection .preserve [(KeyCase.cmdline, flags.toNode), (['x'], .scalar [])]),
      (['z'], .scalar ['#'])]⟩ }

theorem print_sorted_eq_reorderedDocument :
    commandDocument.root.Distinct ∧ reorderedDocument.root.Distinct
      ∧ commandDocument.root.same reorderedDocument.root = true
      ∧ commandDocument.root.SameCommandOrder reorderedDocument.root
      ∧ commandDocument.print false 1 ≠ reorderedDocument.print false 1
      ∧ commandDocument.print true 1 = reorderedDocument.print true 1 := by
  have ha : commandDocument.root.Distinct := by decide
  have hb : reorderedDocument.root.Distinct := by decide
  have hsame : commandDocument.root.same reorderedDocument.root = true := by decide
  have horder : commandDocument.root.SameCommandOrder reorderedDocument.root := by
    -- A path through `cmdline` leads to the flags, or nowhere.
    have hcommand : ∀ path u, KeyCase.cmdline ∈ path → commandDocument.root.at? path = some u →
        ∃ below, path = ['e'] :: KeyCase.cmdline :: below ∧ flags.at? below = some u := by
      intro path u hpath hu
      match path with
      | [] => cases hpath
      | [key] =>
        obtain rfl : KeyCase.cmdline = key := by simpa using hpath
        cases hu
      | key :: second :: below =>
        by_cases hkey : ['e'] = key
        · subst hkey
          by_cases hsecond : KeyCase.cmdline = second
          · subst hsecond
            exact ⟨below, rfl, hu⟩
          · by_cases hx : ['x'] = second <;>
              simp [commandDocument, Section.at?, Section.get?, Entries.get?, hsecond, hx] at hu
        · by_cases hz : ['z'] = key <;>
            simp [commandDocument, Section.at?, Section.get?, Entries.get?, hkey, hz] at hu
    intro path u v hpath hu hv
    obtain ⟨below, rfl, hflags⟩ := hcommand path u hpath hu
    have hflags' : flags.at? below = some v := hv
    rw [Option.some.inj (hflags.symm.trans hflags')]
  exact ⟨ha, hb, hsame, horder, by decide, print_sorted_eq ha hb hsame horder 1⟩

end Document

end WorkflowControl
