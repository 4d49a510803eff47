import WorkflowControl.Text.Basic

/-!
Ordered maps from texts. The entries are kept in the order in which their keys came in: writing a
key that is there replaces its value in place, and a new key goes to the end.
-/

namespace WorkflowControl

/-- Keys and values in the order of their first writing. -/
abbrev Entries (α : Type) := List (Text × α)

namespace Entries

variable {α : Type}

/-- The value of `key`. -/
def get? (key : Text) : Entries α → Option α
  | [] => none
  | (k, v) :: rest => if k = key then some v else get? key rest

/-- Writes `value` under `key`, in place if the key is there and at the end if it is not. -/
def put (key : Text) (value : α) : Entries α → Entries α
  | [] => [(key, value)]
  | (k, v) :: rest => if k = key then (k, value) :: rest else (k, v) :: put key value rest

/-- Drops `key`; the other entries keep their order. -/
def erase (key : Text) : Entries α → Entries α
  | [] => []
  | (k, v) :: rest => if k = key then rest else (k, v) :: erase key rest

/-- The keys in order. -/
def keys (entries : Entries α) : List Text := entries.map Prod.fst

/-- Writes the entries of `added` in turn. -/
def putAll (entries : Entries α) : Entries α → Entries α
  | [] => entries
  | (k, v) :: rest => putAll (entries.put k v) rest

@[simp] theorem get?_nil (key : Text) : get? key ([] : Entries α) = none := rfl

@[simp] theorem get?_put_self (key : Text) (value : α) (entries : Entries α) :
    (entries.put key value).get? key = some value := by
  induction entries with
  | nil => simp [put, get?]
  | cons e rest ih =>
    obtain ⟨k, v⟩ := e
    by_cases h : k = key
    · simp [put, get?, h]
    · simp [put, get?, h, ih]

theorem get?_put_ne {key other : Text} (h : other ≠ key) (value : α) (entries : Entries α) :
    (entries.put key value).get? other = entries.get? other := by
  induction entries with
  | nil => simp [put, get?, Ne.symm h]
  | cons e rest ih =>
    obtain ⟨k, v⟩ := e
    by_cases hk : k = key
    · subst hk; simp [put, get?, Ne.symm h]
    · by_cases ho : k = other
      · subst ho; simp [put, get?, hk]
      · simp [put, get?, hk, ho, ih]

/-- A key has no value exactly if it is not among the keys. -/
theorem get?_eq_none_iff {key : Text} {entries : Entries α} :
    entries.get? key = none ↔ key ∉ entries.keys := by
  induction entries with
  | nil => simp [keys]
  | cons e rest ih =>
    obtain ⟨k, v⟩ := e
    by_cases h : k = key
    · simp [get?, keys, h]
    · have hne : key ≠ k := Ne.symm h
      simpa [get?, keys, h, hne] using ih

/-- Writing keeps the keys and their order; a key that is new goes to the end. -/
theorem keys_put (key : Text) (value : α) (entries : Entries α) :
    (entries.put key value).keys
      = if key ∈ entries.keys then entries.keys else entries.keys ++ [key] := by
  induction entries with
  | nil => simp [put, keys]
  | cons e rest ih =>
    obtain ⟨k, v⟩ := e
    by_cases h : k = key
    · simp [put, keys, h]
    · have hne : key ≠ k := Ne.symm h
      have hput : keys ((k, v) :: put key value rest) = k :: keys (put key value rest) := rfl
      have hkeys : keys ((k, v) :: rest) = k :: keys rest := rfl
      rw [put, if_neg h, hput, ih, hkeys]
      by_cases hk : key ∈ keys rest <;> simp [hk, hne]

end Entries

end WorkflowControl
