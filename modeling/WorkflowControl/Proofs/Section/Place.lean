import WorkflowControl.Proofs.Entries
import WorkflowControl.Section.Basic

/-!
Places in a tree of sections, and the sections put there. What is changed at a place is
`modifyAt?` of the tree, and it is the same as putting the changed section there (`modifyAt?_eq`).
A section that is put somewhere is found there (`at?_replaceAt`), and what is put under a child of a
place is put there as a whole (`replaceAt_child`).
-/

namespace WorkflowControl

namespace Section

/-- The tree with the section `new` at a place; a tree that has no section there is left as it is.
-/
def replaceAt (s : Section) : List Text → Section → Section
  | [], new => new
  | key :: path, new =>
    match s.getSection? key with
    | none => s
    | some child => { s with entries := s.entries.put key (child.replaceAt path new).toNode }

theorem getSection?_eq_some_iff {s child : Section} {key : Text} :
    s.getSection? key = some child ↔ s.get? key = some child.toNode := by
  unfold getSection?
  cases s.get? key with
  | none => simp
  | some node =>
    cases node with
    | scalar value => simp [Node.section?, toNode]
    | subsection mode entries =>
      cases child
      simp [Node.section?, toNode]

/-- A section put under a key is the child of that key. -/
theorem getSection?_put (s child : Section) (key : Text) :
    getSection? { s with entries := s.entries.put key child.toNode } key = some child :=
  getSection?_eq_some_iff.mpr (Entries.get?_put_self key _ s.entries)

theorem getScalar?_eq_some_iff {s : Section} {key value : Text} :
    s.getScalar? key = some value ↔ s.get? key = some (.scalar value) := by
  unfold getScalar?
  cases s.get? key with
  | none => simp
  | some node => cases node <;> simp [Node.scalar?]

/-- A section that is entered is there already, or it is new and empty. -/
theorem withSection?_cases {s new : Section} {name : Text} (h : s.withSection? name = some new) :
    (∃ child, s.getSection? name.lower = some child) ∧ new = s
      ∨ s.get? name.lower = none
        ∧ new = { s with
            entries := s.entries.put name.lower (toNode ⟨s.mode.ofChild name.lower, []⟩) } := by
  unfold withSection? at h
  dsimp only at h
  split at h
  · cases h
  · rename_i mode entries hget
    exact .inl ⟨⟨⟨mode, entries⟩, getSection?_eq_some_iff.mpr hget⟩, (Option.some.inj h).symm⟩
  · rename_i hget
    exact .inr ⟨hget, (Option.some.inj h).symm⟩

theorem at?_cons (s : Section) (key : Text) (path : List Text) :
    s.at? (key :: path) = (s.getSection? key).bind fun child => child.at? path := by
  rw [at?, getSection?]
  cases s.get? key with
  | none => rfl
  | some node => cases node <;> rfl

theorem modifyAt?_cons (f : Section → Option Section) (key : Text) (path : List Text)
    (s : Section) :
    modifyAt? f (key :: path) s = (s.getSection? key).bind fun child =>
      (modifyAt? f path child).map fun child =>
        { s with entries := s.entries.put key child.toNode } := by
  rw [modifyAt?, getSection?]
  cases s.get? key with
  | none => rfl
  | some node => cases node <;> rfl

theorem at?_append (s : Section) (path rest : List Text) :
    s.at? (path ++ rest) = (s.at? path).bind fun t => t.at? rest := by
  induction path generalizing s with
  | nil => rfl
  | cons key path ih =>
    rw [List.cons_append, at?_cons, at?_cons, Option.bind_assoc]
    exact congrArg _ (funext fun child => ih child)

theorem at?_concat (s : Section) (path : List Text) (key : Text) :
    s.at? (path ++ [key]) = (s.at? path).bind fun t => t.getSection? key := by
  rw [at?_append]
  refine congrArg _ (funext fun t => ?_)
  rw [at?_cons]
  cases t.getSection? key <;> rfl

/-- Changing the section at a place is putting the changed one there. -/
theorem modifyAt?_eq {f : Section → Option Section} {path : List Text} {root s : Section}
    (h : root.at? path = some s) :
    modifyAt? f path root = (f s).map fun new => root.replaceAt path new := by
  induction path generalizing root with
  | nil =>
    obtain rfl := Option.some.inj h
    simp [modifyAt?, replaceAt]
  | cons key path ih =>
    rw [at?_cons] at h
    cases hchild : root.getSection? key with
    | none => rw [hchild] at h; cases h
    | some child =>
      rw [hchild, Option.bind_some] at h
      rw [modifyAt?_cons, hchild, Option.bind_some, ih h, Option.map_map]
      refine congrArg (fun g => (f s).map g) (funext fun new => ?_)
      simp only [Function.comp, replaceAt, hchild]

theorem modifyAt?_of_none {f : Section → Option Section} {path : List Text} {root : Section}
    (h : root.at? path = none) : modifyAt? f path root = none := by
  induction path generalizing root with
  | nil => cases h
  | cons key path ih =>
    rw [at?_cons] at h
    rw [modifyAt?_cons]
    cases hchild : root.getSection? key with
    | none => rfl
    | some child =>
      rw [hchild, Option.bind_some] at h
      rw [Option.bind_some, ih h]
      rfl

theorem at?_replaceAt {path : List Text} {root s : Section} (h : root.at? path = some s)
    (new : Section) : (root.replaceAt path new).at? path = some new := by
  induction path generalizing root with
  | nil => rfl
  | cons key path ih =>
    rw [at?_cons] at h
    cases hchild : root.getSection? key with
    | none => rw [hchild] at h; cases h
    | some child =>
      rw [hchild, Option.bind_some] at h
      simp only [replaceAt, hchild]
      rw [at?_cons, getSection?_put]
      exact ih h

theorem replaceAt_self {path : List Text} {root s : Section} (h : root.at? path = some s) :
    root.replaceAt path s = root := by
  induction path generalizing root with
  | nil => exact (Option.some.inj h).symm
  | cons key path ih =>
    rw [at?_cons] at h
    obtain ⟨child, hchild, h⟩ := Option.bind_eq_some_iff.mp h
    simp only [replaceAt, hchild, ih h, Entries.put_self (getSection?_eq_some_iff.mp hchild)]

theorem replaceAt_replaceAt (new other : Section) (path : List Text) (root : Section) :
    (root.replaceAt path new).replaceAt path other = root.replaceAt path other := by
  induction path generalizing root with
  | nil => rfl
  | cons key path ih =>
    cases hchild : root.getSection? key with
    | none => simp only [replaceAt, hchild]
    | some child =>
      simp only [replaceAt, hchild, getSection?_put, Entries.put_put, ih]

/-- What is put further on is put there together with what is on the way. -/
theorem replaceAt_append {path : List Text} {root s : Section} (h : root.at? path = some s)
    (rest : List Text) (new : Section) :
    root.replaceAt (path ++ rest) new = root.replaceAt path (s.replaceAt rest new) := by
  induction path generalizing root with
  | nil =>
    obtain rfl := Option.some.inj h
    rfl
  | cons key path ih =>
    rw [at?_cons] at h
    obtain ⟨child, hchild, h⟩ := Option.bind_eq_some_iff.mp h
    simp only [List.cons_append, replaceAt, hchild, ih h]

/-- What is put under a child of a section is put there together with the section. -/
theorem replaceAt_concat {path : List Text} {key : Text} {root s child : Section}
    (h : root.at? path = some s) (hchild : s.getSection? key = some child) (new : Section) :
    root.replaceAt (path ++ [key]) new
      = root.replaceAt path { s with entries := s.entries.put key new.toNode } := by
  rw [replaceAt_append h]
  simp only [replaceAt, hchild]

end Section

end WorkflowControl
