import WorkflowControl.Fits.Header
import WorkflowControl.Proofs.Outcome

/-!
The size of the data behind a header, as a formula in the integers that its keywords give. The size
is reckoned in words, and from the axes on each result has to fit one, so the formula holds for the
shapes whose results do (`byteCount_eq`).
-/

namespace WorkflowControl.Fits

/-- What the size of the data behind a header follows from: the lengths of its axes, the bits of an
element, which may be written as a negative number, the parameters and the groups. -/
structure DataShape where
  axes : List Nat := []
  bits : Int := 8
  parameters : Nat := 0
  groups : Nat := 1

namespace DataShape

/-- The product of some lengths. -/
def product (lengths : List Nat) : Nat := lengths.foldr (· * ·) 1

theorem product_cons (length : Nat) (rest : List Nat) :
    product (length :: rest) = length * product rest := rfl

/-- The elements of a group, the parameters among them. -/
def elements (shape : DataShape) : Nat := shape.parameters + product shape.axes

/-- The bytes of the data. -/
def size (shape : DataShape) : Nat :=
  if shape.axes = [] then 0 else shape.bits.natAbs / 8 * shape.groups * shape.elements

/-- Whether every result on the way to the size fits a word: the products of the first axes, the
elements of a group, and the size in bits. -/
structure InWords (shape : DataShape) : Prop where
  axes : ∀ count ≤ shape.axes.length, (product (shape.axes.take count) : Int) < Text.wordEnd
  elements : (shape.elements : Int) < Text.wordEnd
  bits : ((shape.bits.natAbs * shape.groups * shape.elements : Nat) : Int) < Text.wordEnd

/-- The bytes are an eighth of the bits. -/
theorem size_eq {shape : DataShape} (haxes : shape.axes ≠ []) (hbits : 8 ∣ shape.bits.natAbs) :
    shape.size = shape.bits.natAbs * shape.groups * shape.elements / 8 := by
  obtain ⟨bytes, hbytes⟩ := hbits
  rw [size, if_neg haxes, hbytes, Nat.mul_div_cancel_left _ (by decide), Nat.mul_assoc 8,
    Nat.mul_assoc 8, Nat.mul_div_cancel_left _ (by decide)]

end DataShape

namespace Header

open DataShape Outcome

/-- The integer under a keyword, if there is one, or the default where the keyword is missing. -/
def integer? (h : Header) (keyword : Text) (default : Option Int) : Option Int :=
  match h.get? keyword with
  | some value => Text.signed? value
  | none => default

/-- Whether the keywords of a header give a shape that has axes. -/
structure GivesAxes (h : Header) (shape : DataShape) : Prop where
  lengths : ∀ i (hi : i < shape.axes.length),
    h.integer? (axisKeyword (i + 1)) none = some (shape.axes[i] : Int)
  bits : h.integer? ['B', 'I', 'T', 'P', 'I', 'X'] none = some shape.bits
  parameters : h.integer? ['P', 'C', 'O', 'U', 'N', 'T'] (some 0) = some (shape.parameters : Int)
  groups : h.integer? ['G', 'C', 'O', 'U', 'N', 'T'] (some 1) = some (shape.groups : Int)
  wholeBytes : shape.bits ≠ 0 ∧ 8 ∣ shape.bits.natAbs ∧ shape.bits.natAbs ≤ 64

/-- Whether the keywords of a header give a shape. Without axes only their number counts. -/
structure Gives (h : Header) (shape : DataShape) : Prop where
  count : h.integer? ['N', 'A', 'X', 'I', 'S'] (some 0) = some (shape.axes.length : Int)
  axes : shape.axes ≠ [] → h.GivesAxes shape

variable {h : Header} {shape : DataShape}

instance : Decidable (h.GivesAxes shape) :=
  decidable_of_decidable_of_iff (p := _ ∧ _ ∧ _ ∧ _ ∧ _)
    ⟨fun ⟨lengths, bits, parameters, groups, wholeBytes⟩ =>
        ⟨lengths, bits, parameters, groups, wholeBytes⟩,
      fun hgives => ⟨hgives.lengths, hgives.bits, hgives.parameters, hgives.groups,
        hgives.wholeBytes⟩⟩

instance : Decidable (h.Gives shape) :=
  decidable_of_decidable_of_iff (p := _ ∧ _)
    ⟨fun ⟨count, axes⟩ => ⟨count, axes⟩, fun hgives => ⟨hgives.count, hgives.axes⟩⟩

theorem integer_eq {keyword : Text} {default : Option Int} {z : Int} (index : Nat)
    (hz : h.integer? keyword default = some z) : h.integer index keyword default = .ok z := by
  unfold integer? at hz
  unfold integer
  cases hget : h.get? keyword with
  | some value =>
    rw [hget] at hz
    dsimp only at hz ⊢
    rw [hz]
  | none =>
    rw [hget] at hz
    dsimp only at hz ⊢
    rw [hz]

theorem word?_natCast {n : Nat} (hn : (n : Int) < Text.wordEnd) :
    word? (n : Int) = some (n : Int) := by
  have hend : 0 ≤ Text.wordEnd := by decide
  have hfits : Text.fitsWord (n : Int) = true := by
    rw [Text.fitsWord, Bool.and_eq_true, decide_eq_true_iff, decide_eq_true_iff]
    omega
  rw [word?, if_pos hfits]

theorem magnitude_eq {z : Int} (hz : z.natAbs ≤ 64) : magnitude z = z.natAbs := by
  have hend : 64 < Text.wordEnd := by decide
  have hne : z ≠ -Text.wordEnd := by omega
  rw [magnitude, if_neg hne]

/-- The product of the axes is reckoned if it fits a word behind every axis. -/
theorem axesProduct_eq (index : Nat) {lengths : List Nat} {axis elements : Nat}
    (hlengths : ∀ i (length : Nat), lengths[i]? = some length →
      h.integer? (axisKeyword (axis + i)) none = some (length : Int))
    (hfits : ∀ count ≤ lengths.length,
      ((elements * product (lengths.take count) : Nat) : Int) < Text.wordEnd) :
    h.axesProduct index axis elements lengths.length
      = .ok ((elements * product lengths : Nat) : Int) := by
  induction lengths generalizing axis elements with
  | nil => rw [product, List.foldr_nil, Nat.mul_one, List.length_nil, axesProduct]
  | cons length rest ih =>
    have hlength : h.integer index (axisKeyword axis) none = .ok (length : Int) :=
      integer_eq index (hlengths 0 length rfl)
    have hproduct : ((elements * length : Nat) : Int) < Text.wordEnd := by
      have hfirst := hfits 1 (Nat.succ_le_succ (Nat.zero_le _))
      rwa [List.take_succ_cons, List.take_zero, product_cons, product, List.foldr_nil, Nat.mul_one]
        at hfirst
    have hrest : h.axesProduct index (axis + 1) ((elements * length : Nat) : Int) rest.length
        = .ok ((elements * length * product rest : Nat) : Int) := by
      apply ih
      · intro i other hother
        rw [Nat.add_assoc, Nat.add_comm 1]
        exact hlengths (i + 1) other hother
      · intro count hcount
        have hnext := hfits (count + 1) (Nat.succ_le_succ hcount)
        rwa [List.take_succ_cons, product_cons, ← Nat.mul_assoc] at hnext
    rw [List.length_cons, axesProduct, hlength, ok_bind, ← Int.natCast_mul, word?_natCast hproduct,
      product_cons, ← Nat.mul_assoc]
    exact hrest

/-- The lengths that a header gives have their product. -/
theorem axesProduct_of_gives (index : Nat) (hgives : h.GivesAxes shape) (hfits : shape.InWords) :
    h.axesProduct index 1 1 shape.axes.length = .ok (product shape.axes : Int) := by
  have hlengths : ∀ i (length : Nat), shape.axes[i]? = some length →
      h.integer? (axisKeyword (1 + i)) none = some (length : Int) := by
    intro i length hlength
    obtain ⟨hi, rfl⟩ := List.getElem?_eq_some_iff.mp hlength
    rw [Nat.add_comm]
    exact hgives.lengths i hi
  have hproducts : ∀ count ≤ shape.axes.length,
      ((1 * product (shape.axes.take count) : Nat) : Int) < Text.wordEnd := by
    intro count hcount
    rw [Nat.one_mul]
    exact hfits.axes count hcount
  have hproduct := axesProduct_eq index hlengths hproducts
  rwa [Nat.one_mul] at hproduct

/-- The size in bits is reckoned if all that comes up on the way fits a word. -/
theorem bitCount?_eq (hfits : shape.InWords) (hbits : shape.bits ≠ 0 ∧ shape.bits.natAbs ≤ 64) :
    bitCount? (product shape.axes : Int) shape.parameters shape.groups shape.bits
      = some ((shape.bits.natAbs * shape.groups * shape.elements : Nat) : Int) := by
  have hgrouped : shape.elements * shape.groups
      ≤ shape.bits.natAbs * shape.groups * shape.elements := by
    calc shape.elements * shape.groups
        = shape.groups * shape.elements := Nat.mul_comm _ _
      _ ≤ shape.bits.natAbs * (shape.groups * shape.elements) :=
          Nat.le_mul_of_pos_left _ (Int.natAbs_pos.mpr hbits.1)
      _ = shape.bits.natAbs * shape.groups * shape.elements := (Nat.mul_assoc _ _ _).symm
  have hword : ((shape.elements * shape.groups : Nat) : Int) < Text.wordEnd :=
    Int.lt_of_le_of_lt (Int.ofNat_le.mpr hgrouped) hfits.bits
  have htotal : shape.elements * shape.groups * shape.bits.natAbs
      = shape.bits.natAbs * shape.groups * shape.elements := by
    rw [Nat.mul_comm _ shape.bits.natAbs, Nat.mul_comm _ shape.groups, Nat.mul_assoc]
  unfold bitCount?
  rw [← Int.natCast_add, ← elements, word?_natCast hfits.elements, Option.bind_eq_bind,
    Option.bind_some, ← Int.natCast_mul, word?_natCast hword, Option.bind_some,
    magnitude_eq hbits.2, ← Int.natCast_mul, htotal, word?_natCast hfits.bits]

/-- The size of the data is that of the shape. -/
theorem byteCount_eq (index : Nat) (hgives : h.Gives shape)
    (hfits : shape.axes ≠ [] → shape.InWords) : h.byteCount index = .ok shape.size := by
  unfold byteCount
  rw [integer_eq index hgives.count]
  show (if (shape.axes.length : Int) = 0 then _ else _) = _
  by_cases haxes : shape.axes = []
  · rw [DataShape.size, if_pos haxes, haxes]
    rfl
  · have hne : ¬ (shape.axes.length : Int) = 0 := by
      have hpos := List.length_pos_iff.mpr haxes
      omega
    obtain ⟨hbits, hbytes, hsmall⟩ := (hgives.axes haxes).wholeBytes
    rw [if_neg hne, integer_eq index (hgives.axes haxes).bits, ok_bind,
      integer_eq index (hgives.axes haxes).parameters, ok_bind]
    dsimp only
    rw [integer_eq index (hgives.axes haxes).groups, ok_bind, Int.toNat_natCast,
      axesProduct_of_gives index (hgives.axes haxes) (hfits haxes), ok_bind,
      bitCount?_eq (hfits haxes) ⟨hbits, hsmall⟩, DataShape.size_eq haxes hbytes]
    rfl

end Header

end WorkflowControl.Fits
