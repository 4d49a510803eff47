import WorkflowControl.ItemList
import WorkflowControl.Proofs.Text.Integer
import WorkflowControl.Proofs.Text.Split
import WorkflowControl.Proofs.Text.Trim

/-!
The characters of items: an item has characters of its list, and digits where it is one of the numbers
of a range.
-/

namespace WorkflowControl.ItemList

/-- The characters of an item are in the list, or they are digits of a range. -/
theorem mem_of_mem_split {text item : Text} {delim c : Char} (h : item ∈ split text delim)
    (hc : c ∈ item) : c ∈ text ∨ Text.isAsciiDigit c = true := by
  obtain ⟨piece, hpiece, hitem⟩ := List.mem_flatMap.mp h
  have hpieceText : ∀ c ∈ piece.trim, c ∈ text := by
    intro c hc
    have hin := Text.mem_of_mem_splitOn hpiece ((Text.trim_infix_self piece).subset hc)
    exact (List.mem_filter.mp hin).1
  unfold expandItem at hitem
  split at hitem
  · obtain rfl := List.mem_singleton.mp hitem
    exact .inl (hpieceText c hc)
  · split at hitem
    · obtain ⟨n, -, rfl⟩ := List.mem_map.mp hitem
      exact .inr ((Text.isDigits_ofNat n).2 c hc)
    · obtain rfl := List.mem_singleton.mp hitem
      exact .inl (hpieceText c hc)

theorem dollar_not_mem_item {text item : Text} {delim : Char} (h : '$' ∉ text)
    (hitem : item ∈ split text delim) : '$' ∉ item := by
  intro hmem
  rcases mem_of_mem_split hitem hmem with hin | hdigit
  · exact h hin
  · cases hdigit

end WorkflowControl.ItemList
