import WorkflowControl.Document.Print
import WorkflowControl.Proofs.Section.Rule

/-!
The order in which a tree is printed. A tree that is printed sorted is printed as it stands once its
entries are arranged (`print_arranged`), so what is proved about printing a tree as it stands holds
of sorted printing as well. An arrangement moves entries within their section only: at every place
it has the same keys, scalars and modes (`at?_arranged`, `getScalar?_arranged`, `keys_arranged`).
-/

namespace WorkflowControl

namespace Text

theorem le_iff {a b : Text} : le a b = true ↔ ¬ b < a := by
  rw [le, Bool.not_eq_true', decide_eq_false_iff_not]

theorem le_trans {a b c : Text} (hab : le a b = true) (hbc : le b c = true) : le a c = true := by
  have hab := List.not_lt.mp (le_iff.mp hab)
  have hbc := List.not_lt.mp (le_iff.mp hbc)
  exact le_iff.mpr (List.not_lt.mpr (List.le_trans hab hbc))

theorem le_of_not_le {a b : Text} (h : le a b = false) : le b a = true := by
  refine le_iff.mpr fun hlt => ?_
  have hle : le a b = true := le_iff.mpr (List.lt_asymm hlt)
  rw [hle] at h
  cases h

end Text

namespace Node

variable {α β : Type}

/-- The entries in the order in which they are printed. -/
def inOrder (sort : Bool) (entries : Entries α) : Entries α :=
  if sort then sortEntries entries else entries

/-! ## Sorting -/

theorem insertSorted_perm (entry : Text × α) (entries : Entries α) :
    (insertSorted entry entries).Perm (entry :: entries) := by
  induction entries with
  | nil => exact List.Perm.refl _
  | cons e rest ih =>
    rw [insertSorted]
    split
    · exact List.Perm.refl _
    · exact (ih.cons e).trans (List.Perm.swap entry e rest)

theorem sortEntries_perm (entries : Entries α) : (sortEntries entries).Perm entries := by
  induction entries with
  | nil => exact List.Perm.refl _
  | cons e rest ih =>
    rw [sortEntries]
    exact (insertSorted_perm e _).trans (ih.cons e)

theorem inOrder_perm (sort : Bool) (entries : Entries α) : (inOrder sort entries).Perm entries := by
  cases sort with
  | false => exact List.Perm.refl _
  | true => exact sortEntries_perm entries

/-- Whether the keys of entries do not get smaller. -/
def Sorted (entries : Entries α) : Prop :=
  entries.Pairwise fun a b => Text.le a.1 b.1 = true

theorem insertSorted_sorted {entry : Text × α} {entries : Entries α} (h : Sorted entries) :
    Sorted (insertSorted entry entries) := by
  induction entries with
  | nil => exact List.pairwise_singleton _ _
  | cons e rest ih =>
    obtain ⟨hhead, htail⟩ := List.pairwise_cons.mp h
    rw [insertSorted]
    split
    · rename_i hle
      refine List.pairwise_cons.mpr ⟨fun a ha => ?_, h⟩
      rcases List.mem_cons.mp ha with rfl | ha
      · exact hle
      · exact Text.le_trans hle (hhead a ha)
    · rename_i hle
      refine List.pairwise_cons.mpr ⟨fun a ha => ?_, ih htail⟩
      rcases List.mem_cons.mp ((insertSorted_perm entry rest).subset ha) with rfl | ha
      · exact Text.le_of_not_le (Bool.eq_false_iff.mpr hle)
      · exact hhead a ha

theorem sortEntries_sorted (entries : Entries α) : Sorted (sortEntries entries) := by
  induction entries with
  | nil => exact List.Pairwise.nil
  | cons e rest ih => exact insertSorted_sorted ih

theorem sortEntries_of_sorted {entries : Entries α} (h : Sorted entries) :
    sortEntries entries = entries := by
  induction entries with
  | nil => rfl
  | cons e rest ih =>
    obtain ⟨hhead, htail⟩ := List.pairwise_cons.mp h
    rw [sortEntries, ih htail]
    cases rest with
    | nil => rfl
    | cons e' rest => rw [insertSorted, if_pos (hhead e' (by simp))]

theorem inOrder_inOrder (sort : Bool) (entries : Entries α) :
    inOrder sort (inOrder sort entries) = inOrder sort entries := by
  cases sort with
  | false => rfl
  | true => exact sortEntries_of_sorted (sortEntries_sorted entries)

/-- Sorting looks at the keys only. -/
theorem sortEntries_map (f : Text → α → β) (entries : Entries α) :
    sortEntries (entries.map fun e => (e.1, f e.1 e.2))
      = (sortEntries entries).map fun e => (e.1, f e.1 e.2) := by
  have hinsert : ∀ (entry : Text × α) (es : Entries α),
      insertSorted (entry.1, f entry.1 entry.2) (es.map fun e => (e.1, f e.1 e.2))
        = (insertSorted entry es).map fun e => (e.1, f e.1 e.2) := by
    intro entry es
    induction es with
    | nil => rfl
    | cons e es ih =>
      rw [List.map_cons, insertSorted, insertSorted]
      split
      · rfl
      · rw [ih, List.map_cons]
  induction entries with
  | nil => rfl
  | cons e rest ih => rw [List.map_cons, sortEntries, sortEntries, ih, hinsert]

theorem inOrder_map (sort : Bool) (f : Text → α → β) (entries : Entries α) :
    inOrder sort (entries.map fun e => (e.1, f e.1 e.2))
      = (inOrder sort entries).map fun e => (e.1, f e.1 e.2) := by
  cases sort with
  | false => rfl
  | true => exact sortEntries_map f entries

/-! ## Arranging a tree -/

mutual

/-- The node under `key` with the entries of every section in the order in which they are printed.
-/
def arranged (sort : Bool) (key : Text) : Node → Node
  | scalar value => scalar value
  | subsection mode entries =>
    let sortChild := sort && key != KeyCase.cmdline
    subsection mode (inOrder sortChild (arrangedEntries sortChild entries))
termination_by structural n => n

/-- The entries, each with its node arranged. -/
def arrangedEntries (sort : Bool) : List (Text × Node) → Entries Node
  | [] => []
  | (key, node) :: rest => (key, arranged sort key node) :: arrangedEntries sort rest
termination_by structural es => es

end

theorem arrangedEntries_eq_map (sort : Bool) (entries : Entries Node) :
    arrangedEntries sort entries = entries.map fun e => (e.1, arranged sort e.1 e.2) := by
  induction entries with
  | nil => rfl
  | cons e rest ih => rw [arrangedEntries, ih, List.map_cons]

theorem printEntries_eq_map (sort : Bool) (indent level : Nat) (entries : Entries Node) :
    printEntries sort indent level entries
      = entries.map fun e => (e.1, printEntry sort indent level e.1 e.2) := by
  induction entries with
  | nil => rfl
  | cons e rest ih => rw [printEntries, ih, List.map_cons]

end Node

namespace Section

/-- The section with the entries of it and of every section below in the order in which they are
printed. -/
def arranged (sort : Bool) (s : Section) : Section :=
  { s with entries := Node.inOrder sort (Node.arrangedEntries sort s.entries) }

/-- Whether the entries of the child section `key` are sorted. -/
def sortsChild (sort : Bool) (key : Text) : Bool := sort && key != KeyCase.cmdline

/-- Whether the entries of the section at a place are sorted. -/
def sortsAt (sort : Bool) (path : List Text) : Bool := sort && !path.contains KeyCase.cmdline

theorem arranged_toNode (sort : Bool) (key : Text) (s : Section) :
    s.toNode.arranged sort key = (s.arranged (sortsChild sort key)).toNode := rfl

theorem entries_arranged (sort : Bool) (s : Section) :
    (s.arranged sort).entries
      = (Node.inOrder sort s.entries).map fun e => (e.1, e.2.arranged sort e.1) := by
  rw [arranged, Node.arrangedEntries_eq_map, Node.inOrder_map]

/-- What an arrangement does to the entries of a section is settled by what it does to its children.
-/
theorem map_arranged_congr {β : Type} {s : Section} {sort : Bool} {f g : Text × Node → β}
    (hscalar : ∀ key value, f (key, .scalar value) = g (key, .scalar value))
    (hchild : ∀ key (child : Section), (key, child.toNode) ∈ s.entries →
      f (key, child.toNode) = g (key, child.toNode)) :
    (Node.inOrder sort s.entries).map f = (Node.inOrder sort s.entries).map g := by
  refine List.map_congr_left fun e he => ?_
  obtain ⟨key, node⟩ := e
  cases node with
  | scalar value => exact hscalar key value
  | subsection mode entries =>
    exact hchild key ⟨mode, entries⟩ ((Node.inOrder_perm sort s.entries).subset he)

/-- A tree that is not sorted is arranged as it is. -/
theorem arranged_false (s : Section) : s.arranged false = s := by
  induction s using induct with
  | step s ih =>
    have hentries : (s.arranged false).entries = s.entries := by
      rw [entries_arranged]
      refine (map_arranged_congr (g := id) ?_ ?_).trans (List.map_id s.entries)
      · intro key value
        rfl
      · intro key child hmem
        have hchild : child.arranged (sortsChild false key) = child := ih key child hmem
        show (key, child.toNode.arranged false key) = _
        rw [arranged_toNode, hchild]
        rfl
    exact congrArg (Section.mk s.mode) hentries

/-- An arranged tree is arranged as it is. -/
theorem arranged_arranged (sort : Bool) (s : Section) :
    (s.arranged sort).arranged sort = s.arranged sort := by
  induction s using induct generalizing sort with
  | step s ih =>
    have hentries : ((s.arranged sort).arranged sort).entries = (s.arranged sort).entries := by
      rw [entries_arranged, entries_arranged, Node.inOrder_map, Node.inOrder_inOrder, List.map_map]
      refine map_arranged_congr ?_ ?_
      · intro key value
        rfl
      · intro key child hmem
        have hchild := ih key child hmem (sortsChild sort key)
        show (key, (child.toNode.arranged sort key).arranged sort key) = _
        rw [arranged_toNode, arranged_toNode, hchild]
    exact congrArg (Section.mk s.mode) hentries

/-! ## Printing -/

/-- Sorted printing of the entries of a section is printing them as they stand when arranged. -/
theorem joinPrinted_arranged (sort : Bool) (indent level : Nat) (s : Section) :
    Node.joinPrinted sort (Node.printEntries sort indent level s.entries)
      = Node.joinPrinted false (Node.printEntries false indent level (s.arranged sort).entries) := by
  induction s using induct generalizing sort level with
  | step s ih =>
    have hsorted : ∀ printed : Entries Text,
        Node.joinPrinted sort printed = ((Node.inOrder sort printed).map Prod.snd).flatten := by
      intro printed
      rw [Node.joinPrinted, List.flatMap_def]
      rfl
    have hplain : ∀ printed : Entries Text,
        Node.joinPrinted false printed = (printed.map Prod.snd).flatten := by
      intro printed
      rw [Node.joinPrinted, List.flatMap_def]
      rfl
    rw [hsorted, hplain, Node.printEntries_eq_map, Node.printEntries_eq_map, entries_arranged,
      Node.inOrder_map, List.map_map, List.map_map, List.map_map]
    refine congrArg List.flatten (map_arranged_congr ?_ ?_)
    · intro key value
      rfl
    · intro key child hmem
      have hchild := ih key child hmem (sortsChild sort key) (level + 1)
      show Node.printEntry sort indent level key child.toNode
        = Node.printEntry false indent level key (child.toNode.arranged sort key)
      rw [arranged_toNode, toNode, toNode, Node.printEntry, Node.printEntry]
      rw [sortsChild] at hchild ⊢
      simp only [Bool.false_and, hchild]

theorem print_arranged (sort : Bool) (indent : Nat) (s : Section) :
    s.print sort indent = (s.arranged sort).print false indent :=
  joinPrinted_arranged sort indent 0 s

theorem print_of_arranged (sort : Bool) (indent : Nat) (s : Section) :
    (s.arranged sort).print sort indent = s.print sort indent := by
  rw [print_arranged, arranged_arranged, ← print_arranged]

/-! ## Places in an arranged tree -/

theorem keys_arranged (sort : Bool) (s : Section) :
    (s.arranged sort).keys = (Node.inOrder sort s.entries).keys := by
  rw [keys, entries_arranged, Entries.keys, List.map_map]
  rfl

theorem keys_arranged_perm (sort : Bool) (s : Section) : (s.arranged sort).keys.Perm s.keys := by
  rw [keys_arranged]
  exact (Node.inOrder_perm sort s.entries).map Prod.fst

section

variable {rule : Rule} {own : Option Text} {s : Section}

theorem get?_arranged (h : s.keys.Nodup) (sort : Bool) (key : Text) :
    (s.arranged sort).get? key = (s.get? key).map (Node.arranged sort key) := by
  have hmap : ∀ es : Entries Node, Entries.get? key (es.map fun e => (e.1, e.2.arranged sort e.1))
      = (es.get? key).map (Node.arranged sort key) := by
    intro es
    induction es with
    | nil => rfl
    | cons e es ih =>
      rw [List.map_cons, Entries.get?, Entries.get?]
      split
      · rename_i hkey
        rw [hkey]
        rfl
      · exact ih
  have hperm := Entries.get?_perm (Node.inOrder_perm sort s.entries).symm h key
  rw [get?, entries_arranged, hmap, hperm]
  rfl

theorem getScalar?_arranged (h : s.keys.Nodup) (sort : Bool) (key : Text) :
    (s.arranged sort).getScalar? key = s.getScalar? key := by
  rw [getScalar?, getScalar?, get?_arranged h]
  cases s.get? key with
  | none => rfl
  | some node => cases node <;> rfl

theorem getSection?_arranged (h : s.keys.Nodup) (sort : Bool) (key : Text) :
    (s.arranged sort).getSection? key
      = (s.getSection? key).map (arranged (sortsChild sort key)) := by
  rw [getSection?, getSection?, get?_arranged h]
  cases s.get? key with
  | none => rfl
  | some node => cases node <;> rfl

theorem sortsAt_cons (sort : Bool) (key : Text) (path : List Text) :
    sortsAt sort (key :: path) = sortsAt (sortsChild sort key) path := by
  rw [sortsAt, sortsAt, sortsChild, List.contains_cons, Bool.not_or, Bool.and_assoc]
  by_cases h : key = KeyCase.cmdline
  · simp [h]
  · have hne : (key != KeyCase.cmdline) = true := by simpa using h
    have heq : (KeyCase.cmdline == key) = false := by simpa using Ne.symm h
    rw [hne, heq]
    rfl

/-- Where a tree has a section, the arranged tree has the arranged one. -/
theorem at?_arranged (h : s.Follows rule own) (sort : Bool) (path : List Text) :
    (s.arranged sort).at? path = (s.at? path).map (arranged (sortsAt sort path)) := by
  induction path generalizing s own sort with
  | nil => simp [at?, sortsAt]
  | cons key path ih =>
    rw [at?_cons, at?_cons, getSection?_arranged h.obeys.nodup, sortsAt_cons]
    cases hchild : s.getSection? key with
    | none => rfl
    | some child => exact ih (h.child hchild) (sortsChild sort key)

theorem obeys_arranged_iff (h : s.keys.Nodup) (sort : Bool) :
    (s.arranged sort).Obeys rule own ↔ s.Obeys rule own := by
  constructor
  · intro ⟨_, hscalar, hchild⟩
    refine ⟨h, fun key value hv => hscalar key value ?_, fun key child hc => ?_⟩
    · rw [getScalar?_arranged h, hv]
    · refine hchild key (child.arranged (sortsChild sort key)) ?_
      rw [getSection?_arranged h, hc, Option.map_some]
  · intro ⟨_, hscalar, hchild⟩
    refine ⟨(keys_arranged_perm sort s).nodup_iff.mpr h, fun key value hv => ?_,
      fun key child hc => ?_⟩
    · rw [getScalar?_arranged h] at hv
      exact hscalar key value hv
    · rw [getSection?_arranged h] at hc
      obtain ⟨child, hchild', rfl⟩ := Option.map_eq_some_iff.mp hc
      exact hchild key child hchild'

theorem Follows.arranged (h : s.Follows rule own) (sort : Bool) :
    (s.arranged sort).Follows rule own := by
  intro path t ht
  rw [at?_arranged h] at ht
  obtain ⟨u, hu, rfl⟩ := Option.map_eq_some_iff.mp ht
  exact (obeys_arranged_iff (h path u hu).nodup _).mpr (h path u hu)

/-- A tree with distinct keys follows the rules that it follows when arranged. -/
theorem Follows.of_arranged {base : Rule} (hbase : s.Follows base own) {sort : Bool}
    (h : (s.arranged sort).Follows rule own) : s.Follows rule own := by
  intro path t ht
  refine (obeys_arranged_iff (hbase path t ht).nodup (sortsAt sort path)).mp (h path _ ?_)
  rw [at?_arranged hbase, ht, Option.map_some]

end

end Section

end WorkflowControl
