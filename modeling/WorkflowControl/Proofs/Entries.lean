import WorkflowControl.Entries

/-!
Entries whose keys are distinct. Looking a key up and being among the entries are then the same
(`get?_eq_some_iff`), so the order of the entries does not matter to a look-up (`get?_perm`).
Writing keeps keys distinct, and what is written under a new key goes to the end. Writing many
entries brings in no others (`mem_putAll`) and loses no key (`mem_keys_putAll`).
-/

namespace WorkflowControl

namespace Entries

variable {α : Type}

@[simp] theorem keys_nil : keys ([] : Entries α) = [] := rfl

@[simp] theorem keys_cons (key : Text) (value : α) (entries : Entries α) :
    keys ((key, value) :: entries) = key :: keys entries := rfl

@[simp] theorem keys_append (entries more : Entries α) :
    keys (entries ++ more) = keys entries ++ keys more := by
  simp [keys]

theorem mem_keys_of_mem {key : Text} {value : α} {entries : Entries α}
    (h : (key, value) ∈ entries) : key ∈ entries.keys :=
  List.mem_map.mpr ⟨(key, value), h, rfl⟩

theorem mem_of_get? {key : Text} {value : α} {entries : Entries α}
    (h : entries.get? key = some value) : (key, value) ∈ entries := by
  induction entries with
  | nil => cases h
  | cons e rest ih =>
    obtain ⟨k, v⟩ := e
    rw [get?] at h
    split at h
    · rename_i hk
      obtain rfl := Option.some.inj h
      simp [hk]
    · exact List.mem_cons_of_mem _ (ih h)

theorem get?_eq_some_iff {key : Text} {value : α} {entries : Entries α}
    (h : entries.keys.Nodup) : entries.get? key = some value ↔ (key, value) ∈ entries := by
  refine ⟨mem_of_get?, fun hmem => ?_⟩
  induction entries with
  | nil => cases hmem
  | cons e rest ih =>
    obtain ⟨k, v⟩ := e
    rw [keys_cons, List.nodup_cons] at h
    rw [get?]
    rcases List.mem_cons.mp hmem with heq | hrest
    · obtain ⟨rfl, rfl⟩ := Prod.mk.inj heq
      rw [if_pos rfl]
    · have hne : k ≠ key := fun hk => h.1 (hk ▸ mem_keys_of_mem hrest)
      rw [if_neg hne]
      exact ih h.2 hrest

theorem get?_perm {entries others : Entries α} (hp : entries.Perm others)
    (h : entries.keys.Nodup) (key : Text) : others.get? key = entries.get? key := by
  have ho : others.keys.Nodup := (hp.map Prod.fst).nodup_iff.mp h
  refine Option.ext fun value => ?_
  rw [get?_eq_some_iff h, get?_eq_some_iff ho, hp.mem_iff]

/-- What comes first is found first. -/
theorem get?_append (key : Text) (entries more : Entries α) :
    get? key (entries ++ more) = (get? key entries).or (get? key more) := by
  induction entries with
  | nil => rfl
  | cons e rest ih =>
    obtain ⟨k, value⟩ := e
    rw [List.cons_append, get?, get?, ih]
    split <;> rfl

theorem get?_put (key other : Text) (value : α) (entries : Entries α) :
    (entries.put key value).get? other = if other = key then some value else entries.get? other := by
  by_cases h : other = key
  · rw [if_pos h, h, get?_put_self]
  · rw [if_neg h, get?_put_ne h]

theorem put_put (key : Text) (value other : α) (entries : Entries α) :
    (entries.put key value).put key other = entries.put key other := by
  induction entries with
  | nil => simp [put]
  | cons e rest ih =>
    obtain ⟨k, v⟩ := e
    by_cases h : k = key
    · simp [put, h]
    · simp [put, h, ih]

theorem put_of_not_mem {key : Text} {entries : Entries α} (h : key ∉ entries.keys) (value : α) :
    entries.put key value = entries ++ [(key, value)] := by
  induction entries with
  | nil => rfl
  | cons e rest ih =>
    obtain ⟨k, v⟩ := e
    rw [keys_cons, List.mem_cons, not_or] at h
    rw [put, if_neg (Ne.symm h.1), ih h.2]
    rfl

theorem put_self {key : Text} {value : α} {entries : Entries α}
    (h : entries.get? key = some value) : entries.put key value = entries := by
  induction entries with
  | nil => cases h
  | cons e rest ih =>
    obtain ⟨k, v⟩ := e
    rw [get?] at h
    rw [put]
    split
    · rename_i hk
      rw [if_pos hk] at h
      rw [Option.some.inj h]
    · rename_i hk
      rw [if_neg hk] at h
      rw [ih h]

theorem keys_put_of_mem {key : Text} {entries : Entries α} (h : key ∈ entries.keys) (value : α) :
    (entries.put key value).keys = entries.keys := by
  rw [keys_put, if_pos h]

theorem nodup_keys_put {entries : Entries α} (h : entries.keys.Nodup) (key : Text) (value : α) :
    (entries.put key value).keys.Nodup := by
  by_cases hk : key ∈ entries.keys
  · rwa [keys_put_of_mem hk]
  · rw [put_of_not_mem hk, keys_append]
    refine List.nodup_append.mpr ⟨h, by simp, fun a ha b hb hab => hk ?_⟩
    have hb : b = key := by simpa using hb
    rwa [hab, hb] at ha

/-! ## What is dropped -/

theorem erase_sublist (key : Text) (entries : Entries α) : (entries.erase key).Sublist entries := by
  induction entries with
  | nil => exact List.Sublist.refl []
  | cons e rest ih =>
    obtain ⟨k, v⟩ := e
    rw [erase]
    split
    · exact List.sublist_cons_self _ rest
    · exact ih.cons_cons (k, v)

theorem mem_of_mem_erase {key : Text} {entries : Entries α} {e : Text × α}
    (h : e ∈ entries.erase key) : e ∈ entries := (erase_sublist key entries).subset h

theorem nodup_keys_erase {entries : Entries α} (h : entries.keys.Nodup) (key : Text) :
    (entries.erase key).keys.Nodup := ((erase_sublist key entries).map Prod.fst).nodup h

theorem keys_erase (key : Text) (entries : Entries α) :
    (entries.erase key).keys = entries.keys.erase key := by
  induction entries with
  | nil => rfl
  | cons e rest ih =>
    obtain ⟨k, v⟩ := e
    rw [erase, keys_cons, List.erase_cons]
    by_cases hk : k = key
    · rw [if_pos hk, if_pos (beq_iff_eq.mpr hk)]
    · rw [if_neg hk, if_neg (mt beq_iff_eq.mp hk), keys_cons, ih]

theorem get?_erase_self {entries : Entries α} (h : entries.keys.Nodup) (key : Text) :
    (entries.erase key).get? key = none := by
  rw [get?_eq_none_iff, keys_erase]
  exact h.not_mem_erase

theorem get?_erase_ne {key other : Text} (h : other ≠ key) (entries : Entries α) :
    (entries.erase key).get? other = entries.get? other := by
  induction entries with
  | nil => rfl
  | cons e rest ih =>
    obtain ⟨k, v⟩ := e
    rw [erase, get?]
    by_cases hk : k = key
    · rw [if_pos hk, if_neg (fun hother => h (hother.symm.trans hk))]
    · rw [if_neg hk, get?, ih]

/-! ## What is written -/

theorem mem_put {key : Text} {value : α} {entries : Entries α} {e : Text × α}
    (h : e ∈ entries.put key value) : e ∈ entries ∨ e = (key, value) := by
  induction entries with
  | nil => exact .inr (List.mem_singleton.mp h)
  | cons first rest ih =>
    obtain ⟨k, v⟩ := first
    rw [put] at h
    split at h
    · rename_i hk
      rcases List.mem_cons.mp h with heq | hrest
      · exact .inr (by rw [heq, hk])
      · exact .inl (List.mem_cons_of_mem _ hrest)
    · rcases List.mem_cons.mp h with heq | hrest
      · exact .inl (by simp [heq])
      · exact (ih hrest).imp (List.mem_cons_of_mem _) id

theorem mem_keys_put {key other : Text} {value : α} {entries : Entries α} :
    other ∈ (entries.put key value).keys ↔ other ∈ entries.keys ∨ other = key := by
  rw [keys_put]
  split
  · rename_i hkey
    constructor
    · exact .inl
    · rintro (hmem | rfl)
      · exact hmem
      · exact hkey
  · rw [List.mem_append, List.mem_singleton]

theorem mem_putAll {entries added : Entries α} {e : Text × α} (h : e ∈ entries.putAll added) :
    e ∈ entries ∨ e ∈ added := by
  induction added generalizing entries with
  | nil => exact .inl h
  | cons first rest ih =>
    obtain ⟨k, v⟩ := first
    rcases ih h with hput | hrest
    · rcases mem_put hput with hmem | rfl
      · exact .inl hmem
      · exact .inr List.mem_cons_self
    · exact .inr (List.mem_cons_of_mem _ hrest)

theorem mem_keys_putAll {key : Text} {entries added : Entries α} :
    key ∈ (entries.putAll added).keys ↔ key ∈ entries.keys ∨ key ∈ added.keys := by
  induction added generalizing entries with
  | nil => simp [putAll]
  | cons first rest ih =>
    obtain ⟨k, v⟩ := first
    rw [putAll, ih, mem_keys_put, keys_cons, List.mem_cons, or_assoc]

end Entries

end WorkflowControl
