import WorkflowControl.Proofs.Section.Rule

/-!
Merging a tree into another one. What stands at a place of the merged-in tree is merged into what
stands there already, or into an empty section that is made for it (`Section.under`, `at?_merge`).
So a change at a place of the merged-in tree is a change at that place of the result
(`merge_replaceAt`): writing into a tree and merging it, or merging it and then writing, is the same
(`insert_merge`, `withSection?_merge`).
-/

namespace WorkflowControl

namespace Entries

variable {α : Type}

/-- Entries that have the same keys in the same order and the same values under them are equal. -/
theorem eq_of_keys {entries others : Entries α} (h : entries.keys.Nodup)
    (hkeys : others.keys = entries.keys) (hget : ∀ key, others.get? key = entries.get? key) :
    others = entries := by
  induction entries generalizing others with
  | nil => exact List.map_eq_nil_iff.mp hkeys
  | cons e rest ih =>
    cases others with
    | nil => cases hkeys
    | cons o others =>
      obtain ⟨k, v⟩ := e
      obtain ⟨k', v'⟩ := o
      rw [keys_cons, keys_cons] at hkeys
      obtain ⟨rfl, htail⟩ := List.cons.inj hkeys
      rw [keys_cons, List.nodup_cons] at h
      have hfirst : some v' = some v := by simpa [get?] using hget k'
      have hothers : others = rest := by
        refine ih h.2 htail fun key => ?_
        by_cases hkey : k' = key
        · subst hkey
          rw [get?_eq_none_iff.mpr h.1, get?_eq_none_iff.mpr (htail ▸ h.1)]
        · simpa [get?, hkey] using hget key
      rw [Option.some.inj hfirst, hothers]

end Entries

namespace Section

/-- The section that one under `key` is merged into: the one that is there, or a new empty one. -/
def base (s : Section) (key : Text) : Section :=
  (s.getSection? key).getD ⟨s.mode.ofChild key, []⟩

/-- The section that one at a place is merged into. -/
def under (s : Section) : List Text → Section
  | [] => s
  | key :: path => (s.base key).under path

/-- Whether no section of a tree has a key twice. -/
def Distinct (s : Section) : Prop := ∀ path t, s.at? path = some t → t.keys.Nodup

variable {s t below : Section} {key : Text} {path : List Text}

theorem Follows.distinct {rule : Rule} {own : Option Text} (h : s.Follows rule own) : s.Distinct :=
  fun path t ht => (h path t ht).nodup

theorem Distinct.nodup (h : s.Distinct) : s.keys.Nodup := h [] s rfl

theorem Distinct.child (h : s.Distinct) (hbelow : s.getSection? key = some below) :
    below.Distinct := by
  intro path t ht
  refine h (key :: path) t ?_
  rw [at?_cons, hbelow, Option.bind_some, ht]

theorem Follows.base {rule : Rule} {own : Option Text} (h : s.Follows rule own) (key : Text) :
    (s.base key).Follows rule (some key) := by
  unfold Section.base
  cases hbelow : s.getSection? key with
  | none => exact follows_empty rule (some key) _
  | some below => exact h.child hbelow

/-- What is merged at a place is merged into a section that follows the rule of the tree. -/
theorem Follows.under {rule : Rule} {own : Option Text} (h : s.Follows rule own)
    (path : List Text) : (s.under path).Follows rule (path.getLast?.or own) := by
  induction path generalizing s own with
  | nil => exact h
  | cons key path ih =>
    rw [getLast?_cons_or]
    exact ih (h.base key)

/-- The rule that asks something of the keys of a section, by its mode, and no more. -/
def Rule.ofKeys (asked : KeyCase → Text → Prop) : Rule where
  scalar mode key _ := asked mode key
  child _ mode key _ := asked mode key

theorem obeys_ofKeys_iff {asked : KeyCase → Text → Prop} {own : Option Text} :
    s.Obeys (.ofKeys asked) own ↔ s.keys.Nodup ∧ ∀ key ∈ s.keys, asked s.mode key := by
  constructor
  · intro h
    refine ⟨h.nodup, fun key hkey => ?_⟩
    cases hnode : s.get? key with
    | none => exact absurd hkey (Entries.get?_eq_none_iff.mp hnode)
    | some node =>
      cases node with
      | scalar value => exact h.scalar key value (getScalar?_eq_some_iff.mpr hnode)
      | subsection mode entries =>
        exact h.child key ⟨mode, entries⟩ (getSection?_eq_some_iff.mpr hnode)
  · intro hgiven
    obtain ⟨hnodup, hkeys⟩ := hgiven
    refine ⟨hnodup, fun key value hvalue => ?_, fun key child hchild => ?_⟩
    · have hmem := Entries.mem_of_get? (getScalar?_eq_some_iff.mp hvalue)
      exact hkeys key (Entries.mem_keys_of_mem hmem)
    · have hmem := Entries.mem_of_get? (getSection?_eq_some_iff.mp hchild)
      exact hkeys key (Entries.mem_keys_of_mem hmem)

theorem follows_ofKeys_iff {asked : KeyCase → Text → Prop} {own : Option Text} :
    s.Follows (.ofKeys asked) own
      ↔ s.Distinct ∧ ∀ path t, s.at? path = some t → ∀ key ∈ t.keys, asked t.mode key := by
  constructor
  · intro h
    exact ⟨h.distinct, fun path t ht => (obeys_ofKeys_iff.mp (h path t ht)).2⟩
  · intro hgiven path t ht
    exact obeys_ofKeys_iff.mpr ⟨hgiven.1 path t ht, hgiven.2 path t ht⟩

/-- A rule for keys does not ask where a section stands. -/
theorem Follows.anywhere {asked : KeyCase → Text → Prop} {own : Option Text}
    (h : s.Follows (.ofKeys asked) own) (other : Option Text) : s.Follows (.ofKeys asked) other :=
  follows_ofKeys_iff.mpr (follows_ofKeys_iff.mp h)

/-- A section with distinct keys follows the rule that asks nothing of them. -/
theorem Distinct.follows (h : s.Distinct) (own : Option Text) :
    s.Follows (.ofKeys fun _ _ => True) own :=
  follows_ofKeys_iff.mpr ⟨h, fun _ _ _ _ _ => trivial⟩

instance (s : Section) : Decidable s.Distinct :=
  have : ∀ mode key value, Decidable ((Rule.ofKeys fun _ _ => True).scalar mode key value) :=
    fun _ _ _ => inferInstanceAs (Decidable True)
  have : ∀ own mode key childMode,
      Decidable ((Rule.ofKeys fun _ _ => True).child own mode key childMode) :=
    fun _ _ _ _ => inferInstanceAs (Decidable True)
  decidable_of_iff (s.Follows (.ofKeys fun _ _ => True) none)
    ⟨Follows.distinct, fun h => h.follows none⟩

theorem Distinct.base (h : s.Distinct) (key : Text) : (s.base key).Distinct :=
  ((h.follows none).base key).distinct

theorem Distinct.under (h : s.Distinct) (path : List Text) : (s.under path).Distinct :=
  ((h.follows none).under path).distinct

theorem eq_of_keys (h : s.keys.Nodup) (hmode : t.mode = s.mode) (hkeys : t.keys = s.keys)
    (hget : ∀ key, t.get? key = s.get? key) : t = s := by
  obtain ⟨mode, entries⟩ := s
  obtain ⟨mode', entries'⟩ := t
  have hentries : entries' = entries := Entries.eq_of_keys h hkeys hget
  have hmode : mode' = mode := hmode
  rw [hentries, hmode]

/-! ## One level -/

/-- The node that `key` holds after `node` was merged over what it held. -/
def mergedOver (s : Section) (key : Text) (node : Node) : Node :=
  node.mergeOver (s.mode.ofChild key) (s.get? key)

theorem mergedOver_toNode (s below : Section) (key : Text) :
    s.mergedOver key below.toNode = ((s.base key).merge below).toNode := by
  unfold mergedOver base getSection?
  cases s.get? key with
  | none => rfl
  | some node => cases node <;> rfl

@[simp] theorem mode_merge (s t : Section) : (s.merge t).mode = s.mode := rfl

theorem merge_empty (s : Section) (mode : KeyCase) : s.merge ⟨mode, []⟩ = s := rfl

theorem get?_mergeEntries {mode : KeyCase} {entries added : Entries Node} (h : added.keys.Nodup)
    (key : Text) :
    (Node.mergeEntries mode entries added).get? key
      = match added.get? key with
        | none => entries.get? key
        | some node => some (node.mergeOver (mode.ofChild key) (entries.get? key)) := by
  induction added generalizing entries with
  | nil => rfl
  | cons e rest ih =>
    obtain ⟨k, n⟩ := e
    rw [Entries.keys_cons, List.nodup_cons] at h
    rw [Node.mergeEntries, ih h.2, Entries.get?_put, Entries.get?]
    by_cases hkey : k = key
    · subst hkey
      rw [if_pos rfl, if_pos rfl, Entries.get?_eq_none_iff.mpr h.1]
    · rw [if_neg hkey, if_neg (Ne.symm hkey)]

theorem get?_merge (h : t.keys.Nodup) (key : Text) :
    (s.merge t).get? key
      = match t.get? key with
        | none => s.get? key
        | some node => some (s.mergedOver key node) := get?_mergeEntries h key

theorem get?_merge_of_none (h : t.keys.Nodup) (hkey : t.get? key = none) :
    (s.merge t).get? key = s.get? key := by
  rw [get?_merge h, hkey]

theorem getSection?_merge (h : t.keys.Nodup) (hbelow : t.getSection? key = some below) :
    (s.merge t).getSection? key = some ((s.base key).merge below) := by
  rw [getSection?_eq_some_iff] at hbelow ⊢
  rw [get?_merge h, hbelow]
  exact congrArg some (mergedOver_toNode s below key)

/-- New keys come behind those that are there, in the order of the tree that is merged in. -/
theorem keys_mergeEntries {mode : KeyCase} {entries added : Entries Node} (h : added.keys.Nodup) :
    (Node.mergeEntries mode entries added).keys
      = entries.keys ++ added.keys.filter fun key => decide (key ∉ entries.keys) := by
  induction added generalizing entries with
  | nil => simp [Node.mergeEntries]
  | cons e rest ih =>
    obtain ⟨k, n⟩ := e
    rw [Entries.keys_cons, List.nodup_cons] at h
    rw [Node.mergeEntries, ih h.2, Entries.keys_put, Entries.keys_cons, List.filter_cons]
    by_cases hkey : k ∈ entries.keys
    · simp [hkey]
    · -- The key that was written is not among the others.
      have hother : ∀ key ∈ Entries.keys rest,
          decide (key ∉ entries.keys ++ [k]) = decide (key ∉ entries.keys) := by
        intro key hmem
        have hne : key ≠ k := fun heq => h.1 (heq ▸ hmem)
        simp [hne]
      rw [if_neg hkey, List.filter_congr hother]
      simp [hkey]

theorem keys_merge (h : t.keys.Nodup) :
    (s.merge t).keys = s.keys ++ t.keys.filter fun key => decide (key ∉ s.keys) :=
  keys_mergeEntries h

theorem mem_keys_merge (h : t.keys.Nodup) : key ∈ (s.merge t).keys ↔ key ∈ s.keys ∨ key ∈ t.keys := by
  rw [keys_merge h, List.mem_append, List.mem_filter, decide_eq_true_eq]
  by_cases hmem : key ∈ s.keys <;> simp [hmem]

theorem nodup_keys_merge (hs : s.keys.Nodup) (ht : t.keys.Nodup) : (s.merge t).keys.Nodup := by
  rw [keys_merge ht, List.nodup_append]
  refine ⟨hs, ht.filter _, fun a ha b hb hab => ?_⟩
  have hnew : b ∉ s.keys := by simpa using (List.mem_filter.mp hb).2
  exact hnew (hab ▸ ha)

/-- What is written into a tree before it is merged is merged over what the other tree has. -/
theorem merge_put (hs : s.keys.Nodup) (ht : t.keys.Nodup) (key : Text) (node : Node) :
    s.merge ⟨t.mode, t.entries.put key node⟩
      = ⟨s.mode, (s.merge t).entries.put key (s.mergedOver key node)⟩ := by
  have hput : (keys ⟨t.mode, t.entries.put key node⟩).Nodup := Entries.nodup_keys_put ht key node
  have hkeys : ∀ (u : Section) (new : Node),
      keys ⟨u.mode, u.entries.put key new⟩ = if key ∈ u.keys then u.keys else u.keys ++ [key] :=
    fun u new => Entries.keys_put key new u.entries
  have hget : ∀ (u : Section) (new : Node) (other : Text),
      get? ⟨u.mode, u.entries.put key new⟩ other = if other = key then some new else u.get? other :=
    fun u new other => Entries.get?_put key other new u.entries
  refine eq_of_keys (Entries.nodup_keys_put (nodup_keys_merge hs ht) _ _) rfl ?_ fun other => ?_
  · have hright := hkeys (s.merge t) (s.mergedOver key node)
    rw [mode_merge] at hright
    rw [keys_merge hput, hkeys, hright, keys_merge ht]
    by_cases hmem : key ∈ t.keys
    · by_cases hold : key ∈ s.keys <;> simp [hmem, hold]
    · by_cases hold : key ∈ s.keys <;> simp [hmem, hold]
  · have hright := hget (s.merge t) (s.mergedOver key node) other
    rw [mode_merge] at hright
    rw [get?_merge hput, hget, hright]
    by_cases hother : other = key
    · rw [if_pos hother, if_pos hother, hother]
    · rw [if_neg hother, if_neg hother]
      exact (get?_merge ht other).symm

/-! ## Places -/

theorem at?_merge (ht : t.Distinct) (hat : t.at? path = some below) :
    (s.merge t).at? path = some ((s.under path).merge below) := by
  induction path generalizing s t with
  | nil =>
    obtain rfl := Option.some.inj hat
    rfl
  | cons key path ih =>
    rw [at?_cons] at hat
    obtain ⟨child, hchild, hat⟩ := Option.bind_eq_some_iff.mp hat
    rw [at?_cons, getSection?_merge ht.nodup hchild, Option.bind_some, ih (ht.child hchild) hat]
    rfl

/-- A change at a place of a tree that is merged in is a change at that place of the result. -/
theorem merge_replaceAt (hs : s.Distinct) (ht : t.Distinct) (hat : t.at? path = some below)
    (new : Section) :
    s.merge (t.replaceAt path new) = (s.merge t).replaceAt path ((s.under path).merge new) := by
  induction path generalizing s t with
  | nil => rfl
  | cons key path ih =>
    rw [at?_cons] at hat
    obtain ⟨child, hchild, hat⟩ := Option.bind_eq_some_iff.mp hat
    have hnext := ih (hs.base key) (ht.child hchild) hat
    simp only [replaceAt, hchild, getSection?_merge ht.nodup hchild]
    rw [merge_put hs.nodup ht.nodup, mergedOver_toNode, hnext]
    rfl

/-- A value can be written before a tree is merged or behind that. -/
theorem insert_merge (hs : s.keys.Nodup) (ht : t.keys.Nodup) (hmode : s.mode = t.mode)
    (key value : Text) :
    (s.merge t).insert key (.scalar value) = s.merge (t.insert key (.scalar value)) := by
  have hput := merge_put hs ht (t.mode.stored key) (.scalar value)
  rw [insert, insert, hput]
  simp only [mode_merge, hmode]
  rfl

/-- A section that can be opened behind a merge can be opened before it as well. -/
theorem withSection?_merge (hs : s.keys.Nodup) (ht : t.keys.Nodup) {name : Text} {merged : Section}
    (hmerged : (s.merge t).withSection? name = some merged) :
    ∃ opened, t.withSection? name = some opened ∧ merged = s.merge opened := by
  unfold withSection? at hmerged ⊢
  dsimp only at hmerged ⊢
  cases hkey : t.get? name.lower with
  | some node =>
    cases node with
    | scalar value =>
      rw [get?_merge ht, hkey] at hmerged
      cases hmerged
    | subsection mode entries =>
      have hchild : t.getSection? name.lower = some ⟨mode, entries⟩ :=
        getSection?_eq_some_iff.mpr hkey
      rw [getSection?_eq_some_iff.mp (getSection?_merge ht hchild)] at hmerged
      exact ⟨t, rfl, (Option.some.inj hmerged).symm⟩
  | none =>
    refine ⟨_, rfl, ?_⟩
    rw [get?_merge_of_none ht hkey] at hmerged
    rw [merge_put hs ht]
    cases hold : s.get? name.lower with
    | none =>
      rw [hold] at hmerged
      obtain rfl := Option.some.inj hmerged
      simp only [mergedOver, hold]
      rfl
    | some node =>
      rw [hold] at hmerged
      cases node with
      | scalar value => cases hmerged
      | subsection mode entries =>
        -- The section is there: an empty one that is merged into it changes nothing.
        obtain rfl := Option.some.inj hmerged
        have hself : s.mergedOver name.lower (.subsection (t.mode.ofChild name.lower) [])
            = .subsection mode entries := by
          rw [mergedOver, hold]
          rfl
        have hget : (s.merge t).entries.get? name.lower = some (.subsection mode entries) :=
          (get?_merge_of_none ht hkey).trans hold
        rw [hself, Entries.put_self hget]
        rfl

/-- A merged tree follows the rule of the tree that was there if those sections obey it that something
was merged into. -/
theorem Follows.merge {rule : Rule} {own : Option Text} (hs : s.Follows rule own)
    (ht : t.Distinct)
    (hobeys : ∀ path below, t.at? path = some below →
      ((s.under path).merge below).Obeys rule (path.getLast?.or own)) :
    (s.merge t).Follows rule own := by
  induction t using induct generalizing s own with
  | step t ih =>
    refine follows_iff.mpr ⟨hobeys [] t rfl, fun key child hchild => ?_⟩
    cases hkey : t.get? key with
    | none =>
      rw [getSection?, get?_merge_of_none ht.nodup hkey] at hchild
      exact hs.child hchild
    | some node =>
      cases node with
      | scalar value =>
        rw [getSection?, get?_merge ht.nodup, hkey] at hchild
        cases hchild
      | subsection mode entries =>
        have hbelow : t.getSection? key = some ⟨mode, entries⟩ := getSection?_eq_some_iff.mpr hkey
        rw [getSection?_merge ht.nodup hbelow] at hchild
        obtain rfl := Option.some.inj hchild
        refine ih key ⟨mode, entries⟩ (Entries.mem_of_get? hkey) (hs.base key) (ht.child hbelow) ?_
        intro path below hat
        rw [← getLast?_cons_or]
        refine hobeys (key :: path) below ?_
        rw [at?_cons, hbelow, Option.bind_some, hat]

/-- A rule for keys holds of a merged tree if it holds of what there was and of the keys that were
merged in, by the modes of the sections that they come into. -/
theorem follows_merge_ofKeys {asked : KeyCase → Text → Prop} {own : Option Text}
    (hs : s.Follows (.ofKeys asked) own) (ht : t.Distinct)
    (hkeys : ∀ path below, t.at? path = some below → ∀ key ∈ below.keys,
      asked (s.under path).mode key) : (s.merge t).Follows (.ofKeys asked) own := by
  refine hs.merge ht fun path below hat => ?_
  have hunder := obeys_ofKeys_iff.mp (hs.under path).obeys
  have hbelow := ht path below hat
  refine obeys_ofKeys_iff.mpr ⟨nodup_keys_merge hunder.1 hbelow, fun key hkey => ?_⟩
  rcases (mem_keys_merge hbelow).mp hkey with hold | hnew
  · exact hunder.2 key hold
  · exact hkeys path below hat key hnew

theorem Distinct.merge (hs : s.Distinct) (ht : t.Distinct) : (s.merge t).Distinct :=
  (follows_merge_ofKeys (hs.follows none) ht fun _ _ _ _ _ => trivial).distinct

end Section

end WorkflowControl
