/-!
The first item of a list for which something is found. Items for which nothing is found have no say,
and neither has an item that was in the list before.
-/

namespace WorkflowControl

variable {α β : Type} {f g : α → Option β} {xs : List α}

/-- What is found first depends on what is found for the items of the list only. -/
theorem findSome?_congr_of_mem (h : ∀ x ∈ xs, f x = g x) : xs.findSome? f = xs.findSome? g := by
  induction xs with
  | nil => rfl
  | cons x xs ih =>
    rw [List.findSome?_cons, List.findSome?_cons, h x List.mem_cons_self,
      ih fun y hy => h y (List.mem_cons_of_mem x hy)]

/-- Items for which nothing is found can be left out. -/
theorem findSome?_filter_of_none {keep : α → Bool} (h : ∀ x ∈ xs, keep x = false → f x = none) :
    (xs.filter keep).findSome? f = xs.findSome? f := by
  induction xs with
  | nil => rfl
  | cons x xs ih =>
    have hrest := ih fun y hy => h y (List.mem_cons_of_mem x hy)
    cases hkeep : keep x with
    | true => rw [List.filter_cons_of_pos hkeep, List.findSome?_cons, List.findSome?_cons, hrest]
    | false =>
      rw [List.filter_cons_of_neg (by simp [hkeep]), List.findSome?_cons,
        h x List.mem_cons_self hkeep, hrest]

/-- What is found again has no say. -/
theorem findSome?_repeated (f : α → Option β) (before between after : List α) (a : α) :
    (before ++ a :: (between ++ a :: after)).findSome? f
      = (before ++ a :: (between ++ after)).findSome? f := by
  cases ha : f a with
  | some b => simp only [List.findSome?_append, List.findSome?_cons, ha]
  | none => simp only [List.findSome?_append, List.findSome?_cons, ha]

end WorkflowControl
