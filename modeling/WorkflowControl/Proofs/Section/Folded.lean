import WorkflowControl.Proofs.Section.Merge
import WorkflowControl.Proofs.Text.Lower

/-!
Trees whose folding sections hold lowered keys only (`Folded`). Writing lowers the key wherever the
section folds, and the name of a section that is opened is lowered in any case, so both keep a tree
folded. Merging takes the keys over as they are: a merged tree is folded exactly if every key that
comes into a folding section was lowered already (`folded_merge_iff`). The section that a key comes
into may fold where the one that it comes from preserves case, as it has its mode from the tree that
is merged into (`Section.under`).
-/

namespace WorkflowControl

namespace Section

/-- What is asked of a key: that it is lowered if its section folds. -/
def LoweredIfFold (mode : KeyCase) (key : Text) : Prop := mode = .fold → key.lower = key

/-- Whether no section of a tree that folds keys has one that is not lowered. -/
def Folded (s : Section) : Prop :=
  ∀ path t, s.at? path = some t → ∀ key ∈ t.keys, LoweredIfFold t.mode key

/-- Whether the keys of `added` are lowered where they come into a section that folds. -/
def Takes (s added : Section) : Prop :=
  ∀ path t, added.at? path = some t → ∀ key ∈ t.keys, LoweredIfFold (s.under path).mode key

theorem loweredIfFold_stored (mode : KeyCase) (key : Text) :
    LoweredIfFold mode (mode.stored key) := by
  intro hmode
  subst hmode
  exact Text.lower_lower key

theorem loweredIfFold_lower (mode : KeyCase) (name : Text) : LoweredIfFold mode name.lower :=
  fun _ => Text.lower_lower name

variable {s added : Section} {own : Option Text}

theorem follows_loweredIfFold_iff :
    s.Follows (.ofKeys LoweredIfFold) own ↔ s.Distinct ∧ s.Folded := follows_ofKeys_iff

theorem Folded.at {path : List Text} {t : Section} (h : s.Folded) (hat : s.at? path = some t) :
    t.Folded := by
  intro below u hu
  refine h (path ++ below) u ?_
  rw [at?_append, hat]
  exact hu

/-- A merged tree is folded exactly if the keys that come into folding sections are lowered. -/
theorem folded_merge_iff (hs : s.Follows (.ofKeys LoweredIfFold) own) (hadded : added.Distinct) :
    (s.merge added).Folded ↔ s.Takes added := by
  constructor
  · intro h path t hat key hkey
    have hmerged := h path _ (at?_merge hadded hat)
    exact hmerged key ((mem_keys_merge (hadded path t hat)).mpr (.inr hkey))
  · intro h
    exact (follows_ofKeys_iff.mp (follows_merge_ofKeys hs hadded h)).2

end Section

end WorkflowControl
