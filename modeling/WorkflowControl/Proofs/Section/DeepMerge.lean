import WorkflowControl.Proofs.Section.Merge

/-!
What a merged tree has at each path. A path of keys leads to a scalar, to a section or to nothing
(`node?`). At a path where the tree that is merged in has something, the merged tree has the same
kind of thing, and at any other path it has what was there before, unless a scalar that was merged in
stands above it (`node?_merge_of_none`). In every section that was there before, the old keys come
first and the new ones behind them. A second merge of the same tree changes nothing
(`merge_merge_self`). All of this together is `isDeepMerge_merge`.
-/

namespace WorkflowControl.Section

/-- The node that the stored keys of a path lead to; no keys lead to the section itself. -/
def node? (s : Section) : List Text → Option Node
  | [] => some s.toNode
  | key :: path =>
    match s.get? key with
    | some (.scalar value) => if path.isEmpty then some (.scalar value) else none
    | some (.subsection mode entries) => node? ⟨mode, entries⟩ path
    | none => none

/-- Whether a proper start of a path leads to a scalar, so that nothing can be at the path. -/
def ScalarAbove (s : Section) (path : List Text) : Prop :=
  ∃ start value, start <+: path ∧ start ≠ path ∧ s.node? start = some (.scalar value)

variable {s t below : Section} {key value : Text} {path : List Text}

/-! ## Paths -/

theorem node?_cons_of_section (h : s.getSection? key = some below) (path : List Text) :
    s.node? (key :: path) = below.node? path := by
  rw [node?, getSection?_eq_some_iff.mp h]
  rfl

theorem node?_cons_of_scalar (h : s.getScalar? key = some value) (path : List Text) :
    s.node? (key :: path) = if path.isEmpty then some (.scalar value) else none := by
  rw [node?, getScalar?_eq_some_iff.mp h]

theorem node?_cons_of_none (h : s.get? key = none) (path : List Text) :
    s.node? (key :: path) = none := by
  rw [node?, h]

/-- A key holds nothing, a scalar or a section. -/
theorem get?_cases (s : Section) (key : Text) :
    s.get? key = none ∨ (∃ value, s.getScalar? key = some value)
      ∨ ∃ below, s.getSection? key = some below := by
  cases h : s.get? key with
  | none => exact .inl rfl
  | some node =>
    cases node with
    | scalar value => exact .inr (.inl ⟨value, getScalar?_eq_some_iff.mpr h⟩)
    | subsection mode entries =>
      exact .inr (.inr ⟨⟨mode, entries⟩, getSection?_eq_some_iff.mpr h⟩)

theorem at?_cons_of_section (h : s.getSection? key = some below) (path : List Text) :
    s.at? (key :: path) = below.at? path := by
  rw [at?_cons, h, Option.bind_some]

theorem getSection?_of_scalar (h : s.getScalar? key = some value) : s.getSection? key = none := by
  rw [getSection?, getScalar?_eq_some_iff.mp h]
  rfl

theorem getSection?_of_none (h : s.get? key = none) : s.getSection? key = none := by
  rw [getSection?, h]
  rfl

/-- A path leads to a section as a node exactly if it leads there through sections. -/
theorem node?_eq_toNode_iff : s.node? path = some t.toNode ↔ s.at? path = some t := by
  induction path generalizing s with
  | nil =>
    obtain ⟨mode, entries⟩ := s
    obtain ⟨mode', entries'⟩ := t
    simp [node?, at?, toNode]
  | cons key path ih =>
    rcases get?_cases s key with hnone | ⟨value, hscalar⟩ | ⟨below, hbelow⟩
    · rw [node?_cons_of_none hnone, at?_cons, getSection?_of_none hnone]
      simp
    · rw [node?_cons_of_scalar hscalar, at?_cons, getSection?_of_scalar hscalar]
      cases path <;> simp [toNode]
    · rw [node?_cons_of_section hbelow, at?_cons_of_section hbelow]
      exact ih

/-- What a path leads to is nothing, a scalar or a section. -/
theorem node?_cases (s : Section) (path : List Text) :
    s.node? path = none ∨ (∃ value, s.node? path = some (.scalar value))
      ∨ ∃ t, s.at? path = some t := by
  cases h : s.node? path with
  | none => exact .inl rfl
  | some node =>
    cases node with
    | scalar value => exact .inr (.inl ⟨value, rfl⟩)
    | subsection mode entries =>
      exact .inr (.inr ⟨⟨mode, entries⟩, node?_eq_toNode_iff.mp h⟩)

/-- A path leads to what its last key holds in the section that the other keys lead to. -/
theorem node?_concat (s : Section) (path : List Text) (key : Text) :
    s.node? (path ++ [key]) = (s.at? path).bind fun t => t.get? key := by
  induction path generalizing s with
  | nil =>
    rw [List.nil_append, node?]
    cases hget : s.get? key with
    | none => exact hget.symm
    | some node => cases node <;> exact hget.symm
  | cons first path ih =>
    rcases get?_cases s first with hnone | ⟨value, hscalar⟩ | ⟨below, hbelow⟩
    · rw [List.cons_append, node?_cons_of_none hnone, at?_cons, getSection?_of_none hnone]
      rfl
    · rw [List.cons_append, node?_cons_of_scalar hscalar, at?_cons, getSection?_of_scalar hscalar]
      simp
    · rw [List.cons_append, node?_cons_of_section hbelow, at?_cons_of_section hbelow]
      exact ih below

theorem not_scalarAbove_cons_of_none (h : s.get? key = none) :
    ¬ s.ScalarAbove (key :: path) := by
  rintro ⟨start, value, hstart, -, hnode⟩
  cases start with
  | nil => cases hnode
  | cons k start =>
    obtain ⟨rfl, -⟩ := List.cons_prefix_cons.mp hstart
    rw [node?_cons_of_none h] at hnode
    cases hnode

/-- A scalar stands above everything that its key begins, the scalar itself apart. -/
theorem scalarAbove_cons_of_scalar (h : s.getScalar? key = some value) :
    s.ScalarAbove (key :: path) ↔ path ≠ [] := by
  constructor
  · intro ⟨start, other, hstart, hne, hnode⟩ hpath
    subst hpath
    rcases List.prefix_cons_iff.mp hstart with rfl | ⟨rest, rfl, hrest⟩
    · cases hnode
    · rw [List.prefix_nil.mp hrest] at hne
      exact hne rfl
  · intro hpath
    refine ⟨[key], value, ?_, ?_, ?_⟩
    · exact List.cons_prefix_cons.mpr ⟨rfl, List.nil_prefix⟩
    · simpa using Ne.symm hpath
    · rw [node?_cons_of_scalar h]
      rfl

theorem scalarAbove_cons_of_section (h : s.getSection? key = some below) :
    s.ScalarAbove (key :: path) ↔ below.ScalarAbove path := by
  constructor
  · intro ⟨start, value, hstart, hne, hnode⟩
    cases start with
    | nil => cases hnode
    | cons k start =>
      obtain ⟨rfl, hrest⟩ := List.cons_prefix_cons.mp hstart
      rw [node?_cons_of_section h] at hnode
      exact ⟨start, value, hrest, fun heq => hne (heq ▸ rfl), hnode⟩
  · intro ⟨start, value, hstart, hne, hnode⟩
    refine ⟨key :: start, value, List.cons_prefix_cons.mpr ⟨rfl, hstart⟩, ?_, ?_⟩
    · exact fun heq => hne (List.cons.inj heq).2
    · rw [node?_cons_of_section h]
      exact hnode

/-! ## Merging -/

theorem getScalar?_merge (h : t.keys.Nodup) (hvalue : t.getScalar? key = some value) :
    (s.merge t).getScalar? key = some value := by
  rw [getScalar?_eq_some_iff] at hvalue ⊢
  rw [get?_merge h, hvalue]
  rfl

theorem base_of_section (h : s.getSection? key = some below) : s.base key = below := by
  rw [base, h]
  rfl

theorem under_of_at? (h : s.at? path = some t) : s.under path = t := by
  induction path generalizing s with
  | nil => exact Option.some.inj h
  | cons key path ih =>
    rw [at?_cons] at h
    obtain ⟨below, hbelow, h⟩ := Option.bind_eq_some_iff.mp h
    rw [under, base_of_section hbelow]
    exact ih h

/-- Where a tree is merged into an empty section because a key holds none, the key leads to nothing
further on. -/
theorem node?_base (h : path ≠ []) (s : Section) (key : Text) :
    (s.base key).node? path = s.node? (key :: path) := by
  have hempty : ∀ mode, node? ⟨mode, []⟩ path = none := by
    intro mode
    cases path with
    | nil => exact absurd rfl h
    | cons k path => exact node?_cons_of_none rfl path
  rcases get?_cases s key with hnone | ⟨value, hscalar⟩ | ⟨below, hbelow⟩
  · rw [node?_cons_of_none hnone, base, getSection?_of_none hnone]
    exact hempty _
  · rw [node?_cons_of_scalar hscalar, base, getSection?_of_scalar hscalar]
    simp [h, hempty]
  · rw [node?_cons_of_section hbelow, base_of_section hbelow]

/-- A scalar that is merged in stands at its path. -/
theorem node?_merge_of_scalar (ht : t.Distinct) (h : t.node? path = some (.scalar value)) :
    (s.merge t).node? path = some (.scalar value) := by
  induction path generalizing s t with
  | nil => cases h
  | cons key path ih =>
    rcases get?_cases t key with hnone | ⟨other, hscalar⟩ | ⟨below, hbelow⟩
    · rw [node?_cons_of_none hnone] at h
      cases h
    · rw [node?_cons_of_scalar (getScalar?_merge ht.nodup hscalar)]
      rwa [node?_cons_of_scalar hscalar] at h
    · rw [node?_cons_of_section hbelow] at h
      rw [node?_cons_of_section (getSection?_merge ht.nodup hbelow)]
      exact ih (ht.child hbelow) h

/-- At a path where nothing is merged in there is what was there before, unless the path goes on
below a scalar that is merged in. -/
theorem node?_merge_of_none (ht : t.Distinct) (h : t.node? path = none) :
    (¬ t.ScalarAbove path → (s.merge t).node? path = s.node? path)
      ∧ (t.ScalarAbove path → (s.merge t).node? path = none) := by
  induction path generalizing s t with
  | nil => cases h
  | cons key path ih =>
    rcases get?_cases t key with hnone | ⟨value, hscalar⟩ | ⟨below, hbelow⟩
    · -- The key is not among those that are merged in.
      refine ⟨fun _ => ?_, fun habove => absurd habove (not_scalarAbove_cons_of_none hnone)⟩
      rw [node?, node?, get?_merge_of_none ht.nodup hnone]
    · have hpath : path ≠ [] := by
        intro hnil
        rw [node?_cons_of_scalar hscalar, hnil] at h
        cases h
      rw [scalarAbove_cons_of_scalar hscalar,
        node?_cons_of_scalar (getScalar?_merge ht.nodup hscalar)]
      exact ⟨fun hnot => absurd hpath hnot, fun _ => if_neg (by simpa using hpath)⟩
    · rw [node?_cons_of_section hbelow] at h
      have hpath : path ≠ [] := by
        intro hnil
        rw [hnil] at h
        cases h
      rw [scalarAbove_cons_of_section hbelow,
        node?_cons_of_section (getSection?_merge ht.nodup hbelow), ← node?_base hpath s key]
      exact ih (ht.child hbelow) h

/-- A section that was there before and is there still has its keys in front of those that are new
to it. -/
theorem at?_merge_of_at? {u : Section} (ht : t.Distinct) (hs : s.at? path = some below)
    (hmerged : (s.merge t).at? path = some u) :
    u.mode = below.mode
      ∧ u.keys = below.keys
        ++ ((t.at? path).elim [] keys).filter fun key => decide (key ∉ below.keys) := by
  rcases node?_cases t path with hnone | ⟨value, hscalar⟩ | ⟨added, hadded⟩
  · have hnot : t.at? path = none := by
      cases hat : t.at? path with
      | none => rfl
      | some added =>
        rw [node?_eq_toNode_iff.mpr hat] at hnone
        cases hnone
    have hnode := node?_eq_toNode_iff.mpr hmerged
    have hkept : ¬ t.ScalarAbove path := by
      intro habove
      rw [(node?_merge_of_none ht hnone).2 habove] at hnode
      cases hnode
    rw [(node?_merge_of_none ht hnone).1 hkept, node?_eq_toNode_iff, hs] at hnode
    obtain rfl := Option.some.inj hnode
    simp [hnot]
  · have hnode := node?_eq_toNode_iff.mpr hmerged
    rw [node?_merge_of_scalar ht hscalar] at hnode
    cases hnode
  · have heq : u = below.merge added := by
      rw [at?_merge ht hadded, under_of_at? hs] at hmerged
      exact (Option.some.inj hmerged).symm
    rw [heq, hadded]
    exact ⟨mode_merge below added, keys_merge (ht path added hadded)⟩

/-- Merging the same tree again changes nothing. -/
theorem merge_merge_self (hs : s.Distinct) (ht : t.Distinct) :
    (s.merge t).merge t = s.merge t := by
  induction t using induct generalizing s with
  | step t ih =>
    have hmerged : (s.merge t).keys.Nodup := nodup_keys_merge hs.nodup ht.nodup
    refine eq_of_keys hmerged rfl ?_ fun key => ?_
    · have hnothing : t.keys.filter (fun key => decide (key ∉ (s.merge t).keys)) = [] := by
        rw [List.filter_eq_nil_iff]
        intro key hkey
        simpa using (mem_keys_merge ht.nodup).mpr (.inr hkey)
      rw [keys_merge ht.nodup, hnothing, List.append_nil]
    · rcases get?_cases t key with hnone | ⟨value, hscalar⟩ | ⟨below, hbelow⟩
      · rw [get?_merge_of_none ht.nodup hnone]
      · have honce := getScalar?_merge (s := s) ht.nodup hscalar
        have htwice := getScalar?_merge (s := s.merge t) ht.nodup hscalar
        rw [getScalar?_eq_some_iff.mp honce, getScalar?_eq_some_iff.mp htwice]
      · have honce := getSection?_merge (s := s) ht.nodup hbelow
        have htwice := getSection?_merge (s := s.merge t) ht.nodup hbelow
        have hmem : (key, below.toNode) ∈ t.entries :=
          Entries.mem_of_get? (getSection?_eq_some_iff.mp hbelow)
        rw [base_of_section honce, ih key below hmem (hs.base key) (ht.child hbelow)] at htwice
        rw [getSection?_eq_some_iff.mp honce, getSection?_eq_some_iff.mp htwice]

/-- What is asked of a tree that comes of merging another one into a tree, path by path. -/
structure IsDeepMerge (s added merged : Section) : Prop where
  /-- A scalar that is merged in stands at its path. -/
  scalar : ∀ path value, added.node? path = some (.scalar value) →
    merged.node? path = some (.scalar value)
  /-- A section that is merged in is merged into the one at its path, or into an empty one. -/
  subsection : ∀ path below, added.at? path = some below →
    merged.at? path = some ((s.under path).merge below)
  /-- Where nothing is merged in, what was there stays. -/
  kept : ∀ path, added.node? path = none → ¬ added.ScalarAbove path →
    merged.node? path = s.node? path
  /-- Nothing is left below a scalar that is merged in. -/
  covered : ∀ path, added.node? path = none → added.ScalarAbove path → merged.node? path = none
  /-- A section that was there keeps its key case. -/
  mode : ∀ path t u, s.at? path = some t → merged.at? path = some u → u.mode = t.mode
  /-- The keys of a section that was there come first, in their order, and then the new ones in
  theirs. -/
  keys : ∀ path t u, s.at? path = some t → merged.at? path = some u →
    u.keys = t.keys
      ++ ((added.at? path).elim [] keys).filter fun key => decide (key ∉ t.keys)
  /-- A second merge changes nothing. -/
  again : merged.merge added = merged

/-- Merging is deep and keeps the order, path by path, for all trees without a key twice in one
section, whatever the key case of their sections. -/
theorem isDeepMerge_merge (hs : s.Distinct) (ht : t.Distinct) : IsDeepMerge s t (s.merge t) where
  scalar _ _ h := node?_merge_of_scalar ht h
  subsection _ _ h := at?_merge ht h
  kept _ hnone := (node?_merge_of_none ht hnone).1
  covered _ hnone := (node?_merge_of_none ht hnone).2
  mode _ _ _ hs hmerged := (at?_merge_of_at? ht hs hmerged).1
  keys _ _ _ hs hmerged := (at?_merge_of_at? ht hs hmerged).2
  again := merge_merge_self hs ht

/-- Merging into a section that is there, over a scalar, and behind what is there. -/
theorem isDeepMerge_merge_three :
    let s : Section :=
      ⟨.fold, [(['x'], .scalar ['1']),
        (['f'], .subsection .preserve [(['n'], .scalar ['a'])]),
        (['y'], .scalar ['2'])]⟩
    let t : Section :=
      ⟨.fold, [(['z'], .scalar ['3']),
        (['y'], .subsection .preserve [(['k'], .scalar ['4'])]),
        (['f'], .subsection .fold [(['d'], .scalar ['c']), (['n'], .scalar ['b'])])]⟩
    let merged : Section :=
      ⟨.fold, [(['x'], .scalar ['1']),
        (['f'], .subsection .preserve [(['n'], .scalar ['b']), (['d'], .scalar ['c'])]),
        (['y'], .subsection .fold [(['k'], .scalar ['4'])]),
        (['z'], .scalar ['3'])]⟩
    s.Distinct ∧ t.Distinct ∧ IsDeepMerge s t merged := by
  intro s t merged
  have hs : s.Distinct := by decide
  have ht : t.Distinct := by decide
  have hmerged : s.merge t = merged := rfl
  refine ⟨hs, ht, ?_⟩
  rw [← hmerged]
  exact isDeepMerge_merge hs ht

end WorkflowControl.Section
