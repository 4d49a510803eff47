import WorkflowControl.Proofs.Entries
import WorkflowControl.Proofs.Fits.Blocks
import WorkflowControl.Proofs.Fits.Size

/-!
Files that are made of units. Each unit is a header and its data, both filled up to whole blocks,
and the size of the data is the one that the header gives. From the start of a unit, its header is
read and the next unit is gone to, whatever bytes the data are (`readUnits_cons`), so reading gives
the headers of all units and stops at what follows the last one (`headers_of_units`).
-/

namespace WorkflowControl.Fits

open Outcome

/-- What a unit is written as: the cards of its header with the last one, and the data, each with
what fills it up to whole blocks. -/
structure FileUnit where
  cards : List (List UInt8)
  closing : List UInt8
  headerFilling : List UInt8
  data : List UInt8 := []
  dataFilling : List UInt8 := []

namespace FileUnit

/-- The blocks of the header. -/
def headerBytes (u : FileUnit) : List UInt8 := u.cards.flatten ++ (u.closing ++ u.headerFilling)

/-- The blocks of header and data. -/
def bytes (u : FileUnit) : List UInt8 := u.headerBytes ++ (u.data ++ u.dataFilling)

/-- The header that the cards give. -/
def header (u : FileUnit) : Header := ⟨valueCards u.cards⟩

/-- Whether the header of a unit can stand at a place in a file, and header and data are filled up
with no more than that takes. -/
structure IsFramed (u : FileUnit) (index : Nat) : Prop where
  inner : AreInner u.cards
  opening : ∃ first ∈ u.cards.head?, openingBytes index <+: first
  last : IsLast u.closing
  headerWhole : u.headerFilling.length < blockSize ∧ blockSize ∣ u.headerBytes.length
  dataWhole : u.dataFilling.length < blockSize ∧ blockSize ∣ (u.data ++ u.dataFilling).length

/-- Whether a unit can stand at a place in a file, with data of the size that its header gives. -/
structure IsUnit (u : FileUnit) (index : Nat) : Prop where
  framed : u.IsFramed index
  sized : ∃ shape, u.header.Gives shape ∧ (shape.axes ≠ [] → shape.InWords)
    ∧ u.data.length = shape.size

variable {u : FileUnit} {index : Nat}

theorem length_bytes (h : u.IsFramed index) :
    u.bytes.length
      = (u.cards.length / (blockSize / cardSize) + 1) * blockSize + wholeBlocks u.data.length := by
  have hheader := blocks_eq h.inner h.last h.headerWhole.1 h.headerWhole.2
  have hdata := wholeBlocks_eq h.dataWhole.1 h.dataWhole.2
  calc u.bytes.length = u.headerBytes.length + (u.data ++ u.dataFilling).length :=
        List.length_append
    _ = _ := by rw [headerBytes, hheader, hdata]

theorem blockSize_le_length_bytes (h : u.IsFramed index) : blockSize ≤ u.bytes.length := by
  rw [length_bytes h, Nat.succ_mul]
  omega

theorem not_isEmpty_append (h : u.IsFramed index) (rest : List UInt8) :
    ¬ (u.bytes ++ rest).isEmpty := by
  rw [List.isEmpty_iff, List.append_eq_nil_iff]
  rintro ⟨hnone, -⟩
  have hpos := blockSize_le_length_bytes h
  rw [hnone] at hpos
  exact absurd hpos (by decide)

theorem headerAt_bytes (h : u.IsFramed index) (rest : List UInt8) :
    headerAt index (u.bytes ++ rest)
      = .ok (some (u.header, u.cards.length / (blockSize / cardSize) + 1)) := by
  rw [bytes, List.append_assoc]
  exact headerAt_eq h.inner h.last h.opening h.headerWhole.1 h.headerWhole.2 _

end FileUnit

/-- Whether units can stand one after the other from a place in a file on. -/
def AreUnits : (index : Nat) → List FileUnit → Prop
  | _, [] => True
  | index, u :: rest => u.IsUnit index ∧ AreUnits (index + 1) rest

/-- Reading goes from the start of a unit to the start of the next one. -/
theorem readUnits_cons {u : FileUnit} {index : Nat} (h : u.IsUnit index)
    (maxOffset budget offset : Nat) (rest : List UInt8)
    (hoffset : offset + u.bytes.length ≤ maxOffset) :
    readUnits maxOffset (budget + 1) index offset (u.bytes ++ rest)
      = (readUnits maxOffset budget (index + 1) (offset + u.bytes.length) rest).map
          fun headers => u.header :: headers := by
  obtain ⟨shape, hgives, hfits, hdata⟩ := h.sized
  have hsome := FileUnit.not_isEmpty_append h.framed rest
  have hfound : ¬ maxOffset < offset + u.bytes.length := Nat.not_lt.mpr hoffset
  have hnext : (u.bytes ++ rest).drop u.bytes.length = rest := List.drop_left
  rw [readUnits, if_neg hsome, FileUnit.headerAt_bytes h.framed, ok_bind]
  show (do
    let data ← u.header.byteCount index
    _ : Except Fault (List Header)) = _
  rw [Header.byteCount_eq index hgives hfits, ok_bind, ← hdata, ← FileUnit.length_bytes h.framed]
  dsimp only
  rw [if_neg hfound, hnext, bind_ok_eq_map]

/-- What does not start like a header is not looked at behind the units. -/
theorem readUnits_trailing {trailing : List UInt8} (h : ¬ openingBytes 1 <+: trailing)
    (maxOffset budget index offset : Nat) :
    readUnits maxOffset (budget + 1) (index + 1) offset trailing = .ok [] := by
  have hopening : openingBytes (index + 1) = openingBytes 1 := rfl
  have hnone : headerAt (index + 1) trailing = .ok none := by
    have hstarts : (openingBytes 1).isPrefixOf trailing = false := by
      rw [← Bool.not_eq_true, List.isPrefixOf_iff_prefix]
      exact h
    rw [headerAt, hopening, hstarts, Bool.not_false, Bool.or_true]
    rfl
  rw [readUnits, hnone]
  split <;> rfl

/-- Reading gives the headers of all units. -/
theorem readUnits_units {units : List FileUnit} {trailing : List UInt8}
    (htrailing : ¬ openingBytes 1 <+: trailing) (maxOffset : Nat) {budget index offset : Nat}
    (hunits : AreUnits index units) (hany : 0 < index + units.length)
    (hbudget : units.length < budget)
    (hoffset : offset + (units.flatMap FileUnit.bytes).length ≤ maxOffset) :
    readUnits maxOffset budget index offset (units.flatMap FileUnit.bytes ++ trailing)
      = .ok (units.map FileUnit.header) := by
  obtain ⟨budget, rfl⟩ : ∃ less, budget = less + 1 := ⟨budget - 1, by omega⟩
  induction units generalizing budget index offset with
  | nil =>
    obtain ⟨index, rfl⟩ : ∃ less, index = less + 1 := ⟨index - 1, by simp at hany; omega⟩
    exact readUnits_trailing htrailing maxOffset budget index offset
  | cons u rest ih =>
    rw [List.length_cons] at hbudget
    rw [List.flatMap_cons, List.length_append] at hoffset
    obtain ⟨budget, rfl⟩ : ∃ less, budget = less + 1 := ⟨budget - 1, by omega⟩
    have hrest : readUnits maxOffset (budget + 1) (index + 1) (offset + u.bytes.length)
        (rest.flatMap FileUnit.bytes ++ trailing) = .ok (rest.map FileUnit.header) := by
      apply ih hunits.2
      · omega
      · omega
      · omega
    rw [List.flatMap_cons, List.append_assoc,
      readUnits_cons hunits.1 maxOffset (budget + 1) offset _ (by omega), hrest]
    rfl

theorem AreUnits.length_le {units : List FileUnit} {index : Nat} (h : AreUnits index units) :
    units.length * blockSize ≤ (units.flatMap FileUnit.bytes).length := by
  induction units generalizing index with
  | nil => exact Nat.le_refl _
  | cons u rest ih =>
    have hfirst := FileUnit.blockSize_le_length_bytes h.1.framed
    have hrest := ih h.2
    rw [List.length_cons, List.flatMap_cons, List.length_append, Nat.succ_mul]
    omega

/-- The first header that has a keyword has the first card with it. -/
theorem valueIn_units (units : List FileUnit) (keyword : Text) :
    valueIn (units.map FileUnit.header) keyword
      = match Entries.get? keyword.upper (units.flatMap fun u => valueCards u.cards) with
        | some value => .ok value
        | none => .error (.missingKeyword keyword) := by
  have hfirst : (units.map FileUnit.header).findSome? (fun h => h.get? keyword)
      = Entries.get? keyword.upper (units.flatMap fun u => valueCards u.cards) := by
    induction units with
    | nil => rfl
    | cons u rest ih =>
      rw [List.map_cons, List.findSome?_cons, List.flatMap_cons, Entries.get?_append, ← ih]
      have hget : u.header.get? keyword = Entries.get? keyword.upper (valueCards u.cards) := rfl
      rw [hget]
      cases Entries.get? keyword.upper (valueCards u.cards) <;> rfl
  cases hvalue : Entries.get? keyword.upper (units.flatMap fun u => valueCards u.cards) with
  | none => simp only [valueIn, hfirst.trans hvalue]
  | some value => simp only [valueIn, hfirst.trans hvalue]

/-- A file of units is read as their headers, whatever the data are and what follows them, and a
value is that of the first card with its keyword, in the first unit that has one. -/
theorem headers_of_units {units : List FileUnit} {trailing : List UInt8} (hne : units ≠ [])
    (hunits : AreUnits 0 units) (htrailing : ¬ openingBytes 1 <+: trailing) :
    (∀ file : SeekableFile, file.bytes = units.flatMap FileUnit.bytes ++ trailing →
      headers file = .ok (units.map FileUnit.header))
    ∧ ∀ (read : ReadBytes) (path : Text) (keywords : List Text),
      read path = .ok (units.flatMap FileUnit.bytes ++ trailing) →
      fileValues read path keywords = keywords.mapM fun keyword =>
        match Entries.get? keyword.upper (units.flatMap fun u => valueCards u.cards) with
        | some value => .ok value
        | none => .error (.missingKeyword keyword) := by
  have hheaders : ∀ file : SeekableFile, file.bytes = units.flatMap FileUnit.bytes ++ trailing →
      headers file = .ok (units.map FileUnit.header) := by
    intro file hfile
    have hlength : (units.flatMap FileUnit.bytes).length ≤ file.bytes.length := by
      rw [hfile]
      exact (List.prefix_append _ trailing).length_le
    have hbudget : units.length < file.bytes.length / blockSize + 1 :=
      Nat.lt_succ_of_le ((Nat.le_div_iff_mul_le (by decide)).mpr
        (Nat.le_trans hunits.length_le hlength))
    have hread : readUnits file.maxOffset (file.bytes.length / blockSize + 1) 0 0 file.bytes
        = .ok (units.map FileUnit.header) := by
      rw [hfile] at hbudget ⊢
      apply readUnits_units htrailing file.maxOffset hunits
      · rw [Nat.zero_add]
        exact List.length_pos_iff.mpr hne
      · exact hbudget
      · rw [Nat.zero_add]
        exact Nat.le_trans hlength file.length_le_maxOffset
    rw [headers, hread, ok_bind]
    cases units with
    | nil => exact absurd rfl hne
    | cons u rest => rfl
  refine ⟨hheaders, ?_⟩
  intro read path keywords hread
  have hfile : fileHeaders read path = .ok (units.map FileUnit.header) := by
    rw [fileHeaders, hread]
    exact hheaders (.ofBytes _) rfl
  rw [fileValues, hfile, ok_bind]
  exact congrArg (keywords.mapM ·) (funext (valueIn_units units))

/-! ## Units as they are written -/

/-- The bytes of a card with a text of ASCII characters. -/
def cardBytes (text : Text) : List UInt8 :=
  text.map (fun c => c.toNat.toUInt8) ++ List.replicate (cardSize - text.length) 0x20

/-- The last card of a header as it is written. -/
def endCard : List UInt8 := cardBytes Card.lastKeyword

theorem isLast_endCard : IsLast endCard := ⟨by decide, by decide⟩

/-- The number of bytes that fill up others to whole blocks. -/
def filling (size : Nat) : Nat := wholeBlocks size - size

theorem filling_lt (size : Nat) : filling size < blockSize := by
  show (size + 2880 - 1) / 2880 * 2880 - size < 2880
  omega

theorem dvd_add_filling (size : Nat) : blockSize ∣ size + filling size := by
  refine ⟨(size + blockSize - 1) / blockSize, ?_⟩
  show size + ((size + 2880 - 1) / 2880 * 2880 - size) = 2880 * ((size + 2880 - 1) / 2880)
  omega

namespace FileUnit

/-- The unit of some cards and data, with blanks behind the header and zeros behind the data. -/
def written (cards : List (List UInt8)) (data : List UInt8) : FileUnit where
  cards := cards
  closing := endCard
  headerFilling := List.replicate (filling (cards.length * cardSize + cardSize)) 0x20
  data := data
  dataFilling := List.replicate (filling data.length) 0

theorem isFramed_written {cards : List (List UInt8)} {index : Nat} (h : AreInner cards)
    (hopening : ∃ first ∈ cards.head?, openingBytes index <+: first) (data : List UInt8) :
    (written cards data).IsFramed index where
  inner := h
  opening := hopening
  last := isLast_endCard
  headerWhole := by
    rw [headerBytes, written, List.length_append, List.length_append, h.length_flatten,
      isLast_endCard.length, List.length_replicate, ← Nat.add_assoc]
    exact ⟨filling_lt _, dvd_add_filling _⟩
  dataWhole := by
    rw [written, List.length_append, List.length_replicate]
    exact ⟨filling_lt _, dvd_add_filling _⟩

theorem header_written {cards : List (List UInt8)} {read : List Card}
    (h : cards.map Card.ofBytes = read) (data : List UInt8) :
    (written cards data).header = ⟨read.filterMap Card.keyed?⟩ :=
  congrArg Header.mk (valueCards_eq h)

end FileUnit

/-- The cards of a header with an axis. -/
def imageCards : List (List UInt8) :=
  [cardBytes "SIMPLE  = T".toList, cardBytes "BITPIX  = -32".toList,
    cardBytes "NAXIS   = 1".toList, cardBytes "NAXIS1  = 3".toList, cardBytes "BAND    = g".toList]

/-- The cards of a header without axes. -/
def plainCards : List (List UInt8) :=
  [cardBytes "XTENSION= T".toList, cardBytes "BAND    = r".toList,
    cardBytes "EXPTIME = 90.0".toList]

theorem map_imageCards : imageCards.map Card.ofBytes = [.value "SIMPLE".toList "True".toList,
    .value "BITPIX".toList "-32".toList, .value "NAXIS".toList "1".toList,
    .value "NAXIS1".toList "3".toList, .value "BAND".toList "g".toList] := by
  decide +kernel

theorem map_plainCards : plainCards.map Card.ofBytes = [.value "XTENSION".toList "True".toList,
    .value "BAND".toList "r".toList, .value "EXPTIME".toList "90.0".toList] := by
  decide +kernel

/-- A unit whose data begin like a header. -/
def imageUnit : FileUnit := .written imageCards ("XTENSION= 1 ".toList.map fun c => c.toNat.toUInt8)

/-- A unit without data. -/
def plainUnit : FileUnit := .written plainCards []

theorem isUnit_imageUnit : imageUnit.IsUnit 0 where
  framed := FileUnit.isFramed_written (areInner_of_map (by decide) map_imageCards (by decide))
    ⟨_, rfl, by decide⟩ _
  sized := by
    rw [imageUnit, FileUnit.header_written map_imageCards]
    exact ⟨{ axes := [3], bits := -32 }, by decide, fun _ => ⟨by decide, by decide, by decide⟩,
      by decide⟩

theorem isUnit_plainUnit : plainUnit.IsUnit 1 where
  framed := FileUnit.isFramed_written (areInner_of_map (by decide) map_plainCards (by decide))
    ⟨_, rfl, by decide⟩ _
  sized := by
    rw [plainUnit, FileUnit.header_written map_plainCards]
    exact ⟨{}, by decide, fun h => absurd rfl h, rfl⟩

/-- The second header stands behind the data of the first unit, and what follows is no header. -/
theorem headers_of_units_image :
    let trailing : List UInt8 := [0x58, 0x54, 0x45]
    let file : List UInt8 := [imageUnit, plainUnit].flatMap FileUnit.bytes ++ trailing
    let read : ReadBytes := fun _ => .ok file
    AreUnits 0 [imageUnit, plainUnit]
      ∧ ¬ openingBytes 1 <+: trailing
      ∧ headers (.ofBytes file) = .ok [imageUnit.header, plainUnit.header]
      ∧ fileValues read [] ["band".toList, "exptime".toList] = .ok [['g'], "90.0".toList]
      ∧ fileValues read [] ["band".toList, "object".toList]
          = .error (.missingKeyword "object".toList) := by
  intro trailing file read
  have hunits : AreUnits 0 [imageUnit, plainUnit] := ⟨isUnit_imageUnit, isUnit_plainUnit, trivial⟩
  have htrailing : ¬ openingBytes 1 <+: trailing := by decide
  have hcards : [imageUnit, plainUnit].flatMap (fun u => valueCards u.cards)
      = valueCards imageCards ++ valueCards plainCards := by
    rw [List.flatMap_cons, List.flatMap_singleton]
    rfl
  obtain ⟨hheaders, hvalues⟩ := headers_of_units (List.cons_ne_nil _ _) hunits htrailing
  rw [hcards, valueCards_eq map_imageCards, valueCards_eq map_plainCards] at hvalues
  exact ⟨hunits, htrailing, hheaders _ rfl, hvalues read [] _ rfl, hvalues read [] _ rfl⟩

/-! ## Sizes that leave the word -/

/-- Whether the products in the formula of the size fit a word, the size itself among them. -/
structure DataShape.ProductsFit (shape : DataShape) : Prop where
  axes : ∀ count ≤ shape.axes.length, (product (shape.axes.take count) : Int) < Text.wordEnd
  groups : ((shape.bits.natAbs / 8 * shape.groups : Nat) : Int) < Text.wordEnd
  size : (shape.size : Int) < Text.wordEnd

/-- A file whose first unit has a size that cannot be reckoned is refused. -/
theorem headers_eq_error {u : FileUnit} {fault : Fault} (h : u.IsFramed 0)
    (hsize : u.header.byteCount 0 = .error fault) (rest : List UInt8) {file : SeekableFile}
    (hfile : file.bytes = u.bytes ++ rest) : headers file = .error fault := by
  have hsome : ¬ (u.bytes ++ rest).isEmpty := FileUnit.not_isEmpty_append h rest
  rw [headers, hfile, readUnits, if_neg hsome, FileUnit.headerAt_bytes h, ok_bind]
  show (do
    let headers ← (do
      let data ← u.header.byteCount 0
      _ : Except Fault (List Header))
    _ : Except Fault (List Header)) = _
  rw [hsize]
  rfl

/-- The cards of a header without groups, in which the parameters and the elements of the axis are
too many for a word together. -/
def grouplessCards : List (List UInt8) :=
  [cardBytes "SIMPLE  = T".toList, cardBytes "BITPIX  = 8".toList, cardBytes "NAXIS   = 1".toList,
    cardBytes "NAXIS1  = 9223372036854775807".toList, cardBytes "PCOUNT  = 1".toList,
    cardBytes "GCOUNT  = 0".toList]

/-- The cards of a header of data with fewer bytes, but more bits, than a word counts. -/
def vastCards : List (List UInt8) :=
  [cardBytes "SIMPLE  = T".toList, cardBytes "BITPIX  = 8".toList, cardBytes "NAXIS   = 1".toList,
    cardBytes "NAXIS1  = 1152921504606846976".toList]

theorem map_grouplessCards : grouplessCards.map Card.ofBytes = [
    .value "SIMPLE".toList "True".toList, .value "BITPIX".toList "8".toList,
    .value "NAXIS".toList "1".toList, .value "NAXIS1".toList "9223372036854775807".toList,
    .value "PCOUNT".toList "1".toList, .value "GCOUNT".toList "0".toList] := by
  decide +kernel

theorem map_vastCards : vastCards.map Card.ofBytes = [.value "SIMPLE".toList "True".toList,
    .value "BITPIX".toList "8".toList, .value "NAXIS".toList "1".toList,
    .value "NAXIS1".toList "1152921504606846976".toList] := by
  decide +kernel

/-- The size is refused where the elements of a group do not fit a word, even if there is no group,
and where the bits do not, even if the bytes do. -/
theorem headers_beyond_word :
    let groupless : DataShape := { axes := [9223372036854775807], parameters := 1, groups := 0 }
    let vast : DataShape := { axes := [1152921504606846976] }
    let grouplessUnit : FileUnit := .written grouplessCards []
    let vastUnit : FileUnit := .written vastCards (List.replicate 1152921504606846976 0)
    (grouplessUnit.IsFramed 0 ∧ grouplessUnit.header.Gives groupless ∧ groupless.ProductsFit
        ∧ grouplessUnit.data.length = groupless.size
        ∧ headers (.ofBytes grouplessUnit.bytes)
          = .error (.invalidKeyword 0 ['G', 'C', 'O', 'U', 'N', 'T'] ['0']))
      ∧ vastUnit.IsFramed 0 ∧ vastUnit.header.Gives vast ∧ vast.ProductsFit
        ∧ vastUnit.data.length = vast.size
        ∧ headers (.ofBytes vastUnit.bytes)
          = .error (.invalidKeyword 0 ['G', 'C', 'O', 'U', 'N', 'T'] ['1']) := by
  intro groupless vast grouplessUnit vastUnit
  have hgroupless : grouplessUnit.IsFramed 0 :=
    FileUnit.isFramed_written (areInner_of_map (by decide) map_grouplessCards (by decide))
      ⟨_, rfl, by decide⟩ _
  have hvast : ∀ data, (FileUnit.written vastCards data).IsFramed 0 :=
    FileUnit.isFramed_written (areInner_of_map (by decide) map_vastCards (by decide))
      ⟨_, rfl, by decide⟩
  have hgrouplessGives : grouplessUnit.header.Gives groupless := by
    rw [FileUnit.header_written map_grouplessCards]
    decide
  have hvastGives : vastUnit.header.Gives vast := by
    rw [FileUnit.header_written map_vastCards]
    decide
  have hnoElements : headers (.ofBytes grouplessUnit.bytes)
      = .error (.invalidKeyword 0 ['G', 'C', 'O', 'U', 'N', 'T'] ['0']) := by
    refine headers_eq_error hgroupless ?_ [] (List.append_nil _).symm
    rw [FileUnit.header_written map_grouplessCards]
    rfl
  -- Whatever the data are, since those of the unit are too long to be looked at.
  have hnoBits : ∀ data, headers (.ofBytes (FileUnit.written vastCards data).bytes)
      = .error (.invalidKeyword 0 ['G', 'C', 'O', 'U', 'N', 'T'] ['1']) := by
    intro data
    refine headers_eq_error (hvast data) ?_ [] (List.append_nil _).symm
    rw [FileUnit.header_written map_vastCards]
    rfl
  exact ⟨⟨hgroupless, hgrouplessGives, ⟨by decide, by decide, by decide⟩, by decide, hnoElements⟩,
    hvast _, hvastGives, ⟨by decide, by decide, by decide⟩,
    List.length_replicate.trans (by decide), hnoBits _⟩

end WorkflowControl.Fits
