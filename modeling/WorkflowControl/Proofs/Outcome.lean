/-!
Computations that may fail. A sequence of steps succeeds if every step does, and a step for each
item of a list succeeds if it does for each of them.
-/

namespace WorkflowControl.Outcome

variable {ε α β : Type}

/-- The error if there is one, and the result if not. -/
def okUnless (error? : Option ε) (a : α) : Except ε α :=
  match error? with
  | some e => .error e
  | none => .ok a

theorem ok_bind (a : α) (f : α → Except ε β) : (.ok a >>= f) = f a := rfl

theorem bind_eq_ok_iff {x : Except ε α} {f : α → Except ε β} {b : β} :
    (x >>= f) = .ok b ↔ ∃ a, x = .ok a ∧ f a = .ok b := by
  cases x with
  | error e =>
    constructor
    · intro h
      cases h
    · intro hgiven
      obtain ⟨a, h, -⟩ := hgiven
      cases h
  | ok a =>
    constructor
    · intro h
      exact ⟨a, rfl, h⟩
    · intro hgiven
      obtain ⟨a', h, hf⟩ := hgiven
      obtain rfl := Except.ok.inj h
      exact hf

theorem toOption_eq_some_iff {x : Except ε α} {a : α} : x.toOption = some a ↔ x = .ok a := by
  cases x with
  | error e =>
    constructor
    · intro h
      cases h
    · intro h
      cases h
  | ok b =>
    constructor
    · intro h
      exact congrArg Except.ok (Option.some.inj h)
    · intro h
      exact congrArg some (Except.ok.inj h)

theorem map_eq_ok_iff {x : Except ε α} {f : α → β} {b : β} :
    x.map f = .ok b ↔ ∃ a, x = .ok a ∧ f a = b := by
  cases x with
  | error e =>
    constructor
    · intro h
      cases h
    · intro hgiven
      obtain ⟨a, h, -⟩ := hgiven
      cases h
  | ok a =>
    constructor
    · intro h
      exact ⟨a, rfl, Except.ok.inj h⟩
    · intro hgiven
      obtain ⟨a', h, rfl⟩ := hgiven
      obtain rfl := Except.ok.inj h
      rfl

theorem map_eq_error_iff {x : Except ε α} {f : α → β} {e : ε} :
    x.map f = .error e ↔ x = .error e := by
  cases x with
  | error e' =>
    constructor
    · intro h
      exact congrArg Except.error (Except.error.inj h)
    · intro h
      exact congrArg Except.error (Except.error.inj h)
  | ok a =>
    constructor
    · intro h
      cases h
    · intro h
      cases h

theorem bind_ok_eq_map (x : Except ε α) (f : α → β) : (x >>= fun a => .ok (f a)) = x.map f := by
  cases x <;> rfl

theorem mapM_eq_ok_iff {f : α → Except ε β} {xs : List α} {ys : List β} :
    xs.mapM f = .ok ys ↔ xs.map f = ys.map .ok := by
  induction xs generalizing ys with
  | nil =>
    constructor
    · intro h
      obtain rfl := Except.ok.inj h
      rfl
    · intro h
      obtain rfl := List.map_eq_nil_iff.mp h.symm
      rfl
  | cons x xs ih =>
    rw [List.mapM_cons, bind_eq_ok_iff]
    constructor
    · intro hgiven
      obtain ⟨y, hy, hrest⟩ := hgiven
      obtain ⟨ys', hys, heq⟩ := bind_eq_ok_iff.mp hrest
      obtain rfl := Except.ok.inj heq
      rw [List.map_cons, List.map_cons, hy, ih.mp hys]
    · intro h
      obtain ⟨y, ys', rfl, hy, hys⟩ := List.map_eq_cons_iff.mp h.symm
      exact ⟨y, hy.symm, bind_eq_ok_iff.mpr ⟨ys', ih.mpr hys.symm, rfl⟩⟩

theorem mapM_map {γ : Type} (f : α → Except ε β) (g : β → γ) (xs : List α) :
    (xs.mapM f).map (List.map g) = xs.mapM fun x => (f x).map g := by
  induction xs with
  | nil => rfl
  | cons x xs ih =>
    rw [List.mapM_cons, List.mapM_cons, ← ih]
    cases f x with
    | error e => rfl
    | ok y =>
      cases xs.mapM f with
      | error e => rfl
      | ok ys => rfl

/-- The results of a list are those of its items. -/
theorem mem_of_mapM {f : α → Except ε β} {xs : List α} {ys : List β} (h : xs.mapM f = .ok ys)
    {y : β} : y ∈ ys ↔ ∃ x ∈ xs, f x = .ok y := by
  have hmap := mapM_eq_ok_iff.mp h
  constructor
  · intro hy
    have hok : Except.ok y ∈ xs.map f := hmap ▸ List.mem_map_of_mem hy
    exact List.mem_map.mp hok
  · intro hgiven
    obtain ⟨x, hx, hfx⟩ := hgiven
    have hok : f x ∈ ys.map Except.ok := hmap ▸ List.mem_map_of_mem hx
    obtain ⟨y', hy', heq⟩ := List.mem_map.mp hok
    rw [hfx] at heq
    exact Except.ok.inj heq ▸ hy'

theorem exists_of_mapM {f : α → Except ε β} {xs : List α} {ys : List β} (h : xs.mapM f = .ok ys)
    {x : α} (hx : x ∈ xs) : ∃ y ∈ ys, f x = .ok y := by
  have hok : f x ∈ ys.map Except.ok := mapM_eq_ok_iff.mp h ▸ List.mem_map_of_mem hx
  obtain ⟨y, hy, heq⟩ := List.mem_map.mp hok
  exact ⟨y, hy, heq.symm⟩

end WorkflowControl.Outcome
