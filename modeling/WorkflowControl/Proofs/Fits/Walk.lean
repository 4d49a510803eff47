import Mathlib.Data.List.Infix
import WorkflowControl.Proofs.Fits.Overflow

/-!
The walk over the units of a file, round by round and without a bound. A round looks for a header
at an offset and gives the offset behind its data, which is a block further on at least
(`next_of_roundAt`). So the walk ends (`exists_walks`), in no more rounds than the file has blocks
and one (`Walks.rounds_le`), and reading a file is that walk (`Walks.headers_eq`).

Where the end of a file is cut off, a round finds what it found before, or that there is not enough
left of a header (`roundAt_cut`). So the walk over what is left ends earlier or the same, and
nothing else is read (`Walks.exists_cut`).
-/

namespace WorkflowControl.Fits

open Outcome

/-- What a round of the walk gives: the header number `index`, which is at `offset`, and the offset
behind its data, or that there is no header. -/
def roundAt (file : SeekableFile) (index offset : Nat) : Except Fault (Option (Header × Nat)) := do
  match ← headerAt index (file.bytes.drop offset) with
  | none => .ok none
  | some (header, blocks) => do
    let data ← header.byteCount index
    let next := offset + (blocks * blockSize + wholeBlocks data)
    if file.maxOffset < next then .error (.unreadable .invalidOffset)
    else .ok (some (header, next))

/-- The walk from header number `index` at `offset` on: what it gives, and in how many rounds. -/
inductive Walks (file : SeekableFile) :
    (index offset rounds : Nat) → Except Fault (List Header) → Prop where
  /-- There is no round behind the end of the file. -/
  | past {index offset : Nat} (hoffset : file.bytes.length ≤ offset) :
    Walks file index offset 0 (.ok [])
  | fault {index offset : Nat} {fault : Fault} (hoffset : offset < file.bytes.length)
    (hround : roundAt file index offset = .error fault) : Walks file index offset 1 (.error fault)
  | last {index offset : Nat} (hoffset : offset < file.bytes.length)
    (hround : roundAt file index offset = .ok none) : Walks file index offset 1 (.ok [])
  | next {index offset next rounds : Nat} {header : Header} {rest : Except Fault (List Header)}
    (hoffset : offset < file.bytes.length)
    (hround : roundAt file index offset = .ok (some (header, next)))
    (hrest : Walks file (index + 1) next rounds rest) :
    Walks file index offset (rounds + 1) (rest.map fun headers => header :: headers)

/-- What a walk says about a file: one that gives no header says that it is no FITS file. -/
def orNotFits (walked : Except Fault (List Header)) : Except Fault (List Header) :=
  walked >>= fun
    | [] => .error .notFits
    | headers => .ok headers

variable {file cut : SeekableFile} {index offset next rounds : Nat} {header : Header}
  {walked : Except Fault (List Header)}

/-! ## Rounds -/

/-- A header has a block at least. -/
theorem lt_of_readBlocks {count blocks found : Nat} {bytes : List UInt8} {cards : Entries Text}
    (h : readBlocks count bytes cards blocks = some (header, found)) : blocks < found := by
  induction count generalizing bytes cards blocks with
  | zero => cases h
  | succ count ih =>
    rw [readBlocks] at h
    split at h
    · obtain ⟨-, rfl⟩ := Prod.mk.inj (Option.some.inj h)
      exact Nat.lt_succ_self blocks
    · exact Nat.lt_of_succ_lt (ih h)

theorem pos_of_headerAt {blocks : Nat} {bytes : List UInt8}
    (h : headerAt index bytes = .ok (some (header, blocks))) : 0 < blocks := by
  rw [headerAt] at h
  split at h
  · split at h <;> cases h
  · split at h
    · next found hfound =>
      obtain rfl := Option.some.inj (Except.ok.inj h)
      exact lt_of_readBlocks hfound
    · cases h

/-- The walk goes on by a block at least. -/
theorem next_of_roundAt (h : roundAt file index offset = .ok (some (header, next))) :
    offset + blockSize ≤ next := by
  obtain ⟨found, hfound, h⟩ := bind_eq_ok_iff.mp h
  cases found with
  | none => cases h
  | some unit =>
    obtain ⟨header', blocks⟩ := unit
    obtain ⟨data, -, h⟩ := bind_eq_ok_iff.mp h
    have hblocks : blockSize ≤ blocks * blockSize :=
      Nat.le_mul_of_pos_left blockSize (pos_of_headerAt hfound)
    dsimp only at h
    split at h
    · cases h
    · obtain ⟨-, rfl⟩ := Prod.mk.inj (Option.some.inj (Except.ok.inj h))
      omega

/-- A round is what reading does at an offset. -/
theorem readUnits_eq_round (hoffset : offset < file.bytes.length) (budget : Nat) :
    readUnits file.maxOffset (budget + 1) index offset (file.bytes.drop offset)
      = roundAt file index offset >>= fun
        | none => .ok []
        | some (header, next) =>
          (readUnits file.maxOffset budget (index + 1) next (file.bytes.drop next)).map
            fun headers => header :: headers := by
  have hsome : ¬ (file.bytes.drop offset).isEmpty := by
    rw [List.isEmpty_iff, List.drop_eq_nil_iff]
    omega
  rw [readUnits, if_neg hsome, roundAt]
  cases headerAt index (file.bytes.drop offset) with
  | error fault => rfl
  | ok found =>
    cases found with
    | none => rfl
    | some unit =>
      obtain ⟨header, blocks⟩ := unit
      rw [ok_bind, ok_bind]
      dsimp only
      cases header.byteCount index with
      | error fault => rfl
      | ok data =>
        rw [ok_bind, ok_bind]
        split
        · rfl
        · rw [List.drop_drop, bind_ok_eq_map]
          rfl

/-! ## The walk -/

/-- The walk ends, since what is left of the file gets shorter. -/
theorem exists_walks (file : SeekableFile) (index offset : Nat) :
    ∃ rounds walked, Walks file index offset rounds walked := by
  by_cases hoffset : file.bytes.length ≤ offset
  · exact ⟨0, .ok [], .past hoffset⟩
  · have hless := Nat.not_le.mp hoffset
    cases hround : roundAt file index offset with
    | error fault => exact ⟨1, _, .fault hless hround⟩
    | ok found =>
      cases found with
      | none => exact ⟨1, _, .last hless hround⟩
      | some unit =>
        obtain ⟨header, next⟩ := unit
        have hnext : offset < next := Nat.lt_of_lt_of_le (Nat.lt_add_of_pos_right (by decide))
          (next_of_roundAt hround)
        obtain ⟨rounds, walked, hrest⟩ := exists_walks file (index + 1) next
        exact ⟨rounds + 1, _, .next hless hround hrest⟩
termination_by file.bytes.length - offset

/-- Each round but the last one goes on by a block at least, and all of them begin in the file. -/
theorem Walks.rounds_mul_lt (h : Walks file index offset rounds walked) :
    rounds = 0 ∨ rounds * blockSize + offset < file.bytes.length + blockSize := by
  induction h with
  | past hoffset => exact .inl rfl
  | fault hoffset => exact .inr (by omega)
  | last hoffset => exact .inr (by omega)
  | next hoffset hround _ ih =>
    have hnext := next_of_roundAt hround
    rw [Nat.succ_mul]
    rcases ih with rfl | hless
    · exact .inr (by omega)
    · exact .inr (by omega)

theorem Walks.rounds_le (h : Walks file index 0 rounds walked) :
    rounds ≤ file.bytes.length / blockSize + 1 := by
  rcases h.rounds_mul_lt with rfl | hless
  · exact Nat.zero_le _
  · change rounds * 2880 + 0 < file.bytes.length + 2880 at hless
    show rounds ≤ file.bytes.length / 2880 + 1
    omega

/-- Reading with a budget for all rounds is the walk. -/
theorem Walks.readUnits_eq (h : Walks file index offset rounds walked) {budget : Nat}
    (hbudget : rounds ≤ budget) :
    readUnits file.maxOffset budget index offset (file.bytes.drop offset) = walked := by
  induction h generalizing budget with
  | past hoffset =>
    rw [List.drop_of_length_le hoffset]
    cases budget <;> rfl
  | fault hoffset hround =>
    obtain ⟨less, rfl⟩ : ∃ less, budget = less + 1 := ⟨budget - 1, by omega⟩
    rw [readUnits_eq_round hoffset, hround]
    rfl
  | last hoffset hround =>
    obtain ⟨less, rfl⟩ : ∃ less, budget = less + 1 := ⟨budget - 1, by omega⟩
    rw [readUnits_eq_round hoffset, hround]
    rfl
  | next hoffset hround _ ih =>
    obtain ⟨less, rfl⟩ : ∃ less, budget = less + 1 := ⟨budget - 1, by omega⟩
    rw [readUnits_eq_round hoffset, hround, ok_bind]
    dsimp only
    rw [ih (by omega)]

/-- The headers of a file are those of the walk. -/
theorem Walks.headers_eq (h : Walks file 0 0 rounds walked) : headers file = orNotFits walked := by
  rw [← h.readUnits_eq h.rounds_le]
  rfl

/-! ## Files that are cut off -/

/-- What may come of a walk over the front of a file whose whole has the headers `all` from number
`index` on: some of them from the first one on, or that too little is left of one of them. -/
inductive ReadsFront (index : Nat) (all : List Header) : Except Fault (List Header) → Prop where
  | headers {front : List Header} (hfront : front <+: all) : ReadsFront index all (.ok front)
  | notFits : ReadsFront index all (.error .notFits)
  | truncated {number : Nat} (hnumber : number < index + all.length) :
    ReadsFront index all (.error (.truncated number))

/-- A header that ends in the front of some bytes ends there in all of them. -/
theorem readBlocks_of_front {front bytes : List UInt8} (hfront : front <+: bytes) {count more : Nat}
    (hcount : count * blockSize ≤ front.length) (hmore : count ≤ more) {cards : Entries Text}
    {blocks : Nat} {found : Header × Nat} (h : readBlocks count front cards blocks = some found) :
    readBlocks more bytes cards blocks = some found := by
  induction count generalizing front bytes more cards blocks with
  | zero => cases h
  | succ count ih =>
    obtain ⟨more, rfl⟩ : ∃ less, more = less + 1 := ⟨more - 1, by omega⟩
    obtain ⟨behind, rfl⟩ := hfront
    rw [Nat.succ_mul] at hcount
    have hblock : (front ++ behind).take blockSize = front.take blockSize :=
      List.take_append_of_le_length (by omega)
    have hrest : front.drop blockSize <+: (front ++ behind).drop blockSize := by
      rw [List.drop_append_of_le_length (by omega)]
      exact List.prefix_append _ behind
    rw [readBlocks] at h ⊢
    rw [hblock]
    cases hcards : readCards (blockSize / cardSize) (front.take blockSize) cards with
    | mk read ended =>
      rw [hcards] at h
      cases ended with
      | true => exact h
      | false =>
        apply ih hrest
        · rw [List.length_drop]
          omega
        · omega
        · exact h

/-- In the front of some bytes there is the header that is in all of them, or too little for one. -/
theorem headerAt_of_front {front bytes : List UInt8} (hfront : front <+: bytes)
    {found : Option (Header × Nat)} (h : headerAt index bytes = .ok found) :
    headerAt index front = .ok found ∨ headerAt index front = .ok none
      ∨ headerAt index front = .error .notFits
      ∨ headerAt index front = .error (.truncated index) ∧ found ≠ none := by
  by_cases hshort : front.length < blockSize || !(openingBytes index).isPrefixOf front
  · -- The front has no block that begins like a header.
    rw [headerAt, if_pos hshort]
    split
    · exact .inr (.inr (.inl rfl))
    · exact .inr (.inl rfl)
  · have hopens := hshort
    rw [Bool.or_eq_true, not_or, decide_eq_true_eq, Nat.not_lt, Bool.not_eq_true',
      Bool.not_eq_false, List.isPrefixOf_iff_prefix] at hopens
    obtain ⟨hblock, hopening⟩ := hopens
    have hlength := hfront.length_le
    have hlong : ¬ (bytes.length < blockSize || !(openingBytes index).isPrefixOf bytes) := by
      rw [Bool.or_eq_true, not_or, decide_eq_true_eq, Nat.not_lt, Bool.not_eq_true',
        Bool.not_eq_false, List.isPrefixOf_iff_prefix]
      exact ⟨Nat.le_trans hblock hlength, hopening.trans hfront⟩
    rw [headerAt, if_neg hlong] at h
    rw [headerAt, if_neg hshort]
    cases hread : readBlocks (front.length / blockSize) front [] 0 with
    | some unit =>
      rw [readBlocks_of_front hfront (Nat.div_mul_le_self _ _) (Nat.div_le_div_right hlength) hread]
        at h
      exact .inl h
    | none =>
      refine .inr (.inr (.inr ⟨rfl, ?_⟩))
      split at h
      · rw [← Except.ok.inj h]
        exact Option.some_ne_none _
      · cases h

/-- A round over a file that is cut off gives what it gave before, or that too little is left. -/
theorem roundAt_cut (hbytes : cut.bytes <+: file.bytes) (hmax : file.maxOffset ≤ cut.maxOffset)
    {found : Option (Header × Nat)} (h : roundAt file index offset = .ok found) :
    roundAt cut index offset = .ok found ∨ roundAt cut index offset = .ok none
      ∨ roundAt cut index offset = .error .notFits
      ∨ roundAt cut index offset = .error (.truncated index) ∧ found ≠ none := by
  obtain ⟨unit, hunit, h⟩ := bind_eq_ok_iff.mp h
  have hfront : cut.bytes.drop offset <+: file.bytes.drop offset := hbytes.drop offset
  unfold roundAt
  rcases headerAt_of_front hfront hunit with hsame | hnone | hshort | ⟨hended, hsome⟩
  · left
    rw [hsame, ok_bind]
    cases unit with
    | none => exact h
    | some unit =>
      obtain ⟨header, blocks⟩ := unit
      obtain ⟨data, hdata, h⟩ := bind_eq_ok_iff.mp h
      dsimp only at h ⊢
      rw [hdata, ok_bind]
      split at h
      · cases h
      · rw [if_neg (by omega)]
        exact h
  · rw [hnone]
    exact .inr (.inl rfl)
  · rw [hshort]
    exact .inr (.inr (.inl rfl))
  · rw [hended]
    refine .inr (.inr (.inr ⟨rfl, ?_⟩))
    cases unit with
    | none => exact absurd rfl hsome
    | some unit =>
      obtain ⟨header, blocks⟩ := unit
      obtain ⟨data, -, h⟩ := bind_eq_ok_iff.mp h
      dsimp only at h
      split at h
      · cases h
      · rw [← Except.ok.inj h]
        exact Option.some_ne_none _

/-- The walk over a file that is cut off goes the same way, and ends earlier or at the same place. -/
theorem Walks.exists_cut (hbytes : cut.bytes <+: file.bytes) (hmax : file.maxOffset ≤ cut.maxOffset)
    {all : List Header} (h : Walks file index offset rounds (.ok all)) :
    ∃ rounds' walked, Walks cut index offset rounds' walked ∧ ReadsFront index all walked := by
  generalize hwalked : Except.ok all = walked at h
  induction h generalizing all with
  | past hoffset =>
    exact ⟨0, _, .past (Nat.le_trans hbytes.length_le hoffset), .headers List.nil_prefix⟩
  | fault => cases hwalked
  | @last index offset hoffset hround =>
    by_cases hpast : cut.bytes.length ≤ offset
    · exact ⟨0, _, .past hpast, .headers List.nil_prefix⟩
    · have hless := Nat.not_le.mp hpast
      rcases roundAt_cut hbytes hmax hround with hsame | hnone | hshort | ⟨-, hsome⟩
      · exact ⟨1, _, .last hless hsame, .headers List.nil_prefix⟩
      · exact ⟨1, _, .last hless hnone, .headers List.nil_prefix⟩
      · exact ⟨1, _, .fault hless hshort, .notFits⟩
      · exact absurd rfl hsome
  | @next index offset next rounds header rest hoffset hround hrest ih =>
    obtain ⟨others, rfl, rfl⟩ := map_eq_ok_iff.mp hwalked.symm
    by_cases hpast : cut.bytes.length ≤ offset
    · exact ⟨0, _, .past hpast, .headers List.nil_prefix⟩
    · have hless := Nat.not_le.mp hpast
      rcases roundAt_cut hbytes hmax hround with hsame | hnone | hshort | ⟨hended, -⟩
      · obtain ⟨rounds', walked, hwalk, hfront⟩ := ih rfl
        refine ⟨rounds' + 1, _, .next hless hsame hwalk, ?_⟩
        cases hfront with
        | headers hprefix => exact .headers (List.cons_prefix_cons.mpr ⟨rfl, hprefix⟩)
        | notFits => exact .notFits
        | truncated hnumber =>
          apply ReadsFront.truncated
          rw [List.length_cons]
          omega
      · exact ⟨1, _, .last hless hnone, .headers List.nil_prefix⟩
      · exact ⟨1, _, .fault hless hshort, .notFits⟩
      · refine ⟨1, _, .fault hless hended, .truncated ?_⟩
        rw [List.length_cons]
        omega

/-! ## What is read -/

theorem orNotFits_eq_ok_iff {all : List Header} :
    orNotFits walked = .ok all ↔ walked = .ok all ∧ all ≠ [] := by
  cases walked with
  | error fault =>
    constructor
    · intro h
      cases h
    · intro h
      cases h.1
  | ok found =>
    cases found with
    | nil =>
      constructor
      · intro h
        cases h
      · intro h
        exact absurd (Except.ok.inj h.1).symm h.2
    | cons first others =>
      constructor
      · intro h
        obtain rfl := Except.ok.inj h
        exact ⟨rfl, List.cons_ne_nil first others⟩
      · intro h
        exact h.1

theorem ReadsFront.orNotFits {all : List Header} (h : ReadsFront index all walked) :
    ReadsFront index all (orNotFits walked) := by
  cases h with
  | notFits => exact .notFits
  | truncated hnumber => exact .truncated hnumber
  | @headers front hfront =>
    cases front with
    | nil => exact .notFits
    | cons first others => exact .headers hfront

/-- Cutting off the end of a file that can be read leaves some of its headers from the first one on,
or too little for one; no other header and no other fault comes up. The walk that reads a file goes
on by a block with each header, and it ends in as many rounds as there are blocks and one. The file
that is cut off is on a file system with offsets as great at least. -/
theorem readsFront_headers_and_rounds_le (file : SeekableFile) :
    (∀ all, headers file = .ok all → ∀ cut : SeekableFile, cut.bytes <+: file.bytes →
        file.maxOffset ≤ cut.maxOffset →
        ReadsFront 0 all (headers cut) ∧ headers cut ≠ .ok [])
      ∧ (∀ index offset header next,
        roundAt file index offset = .ok (some (header, next)) → offset + blockSize ≤ next)
      ∧ (∃ rounds walked, Walks file 0 0 rounds walked)
      ∧ ∀ rounds walked, Walks file 0 0 rounds walked →
        rounds ≤ file.bytes.length / blockSize + 1 ∧ headers file = orNotFits walked := by
  refine ⟨?_, ?_, exists_walks file 0 0, ?_⟩
  · intro all hall cut hbytes hmax
    obtain ⟨rounds, walked, hwalk⟩ := exists_walks file 0 0
    rw [hwalk.headers_eq] at hall
    obtain ⟨rfl, -⟩ := orNotFits_eq_ok_iff.mp hall
    obtain ⟨rounds', walked, hcut, hfront⟩ := hwalk.exists_cut hbytes hmax
    rw [hcut.headers_eq]
    exact ⟨hfront.orNotFits, fun hnone => (orNotFits_eq_ok_iff.mp hnone).2 rfl⟩
  · intro index offset header next
    exact next_of_roundAt
  · intro rounds walked hwalk
    exact ⟨hwalk.rounds_le, hwalk.headers_eq⟩

/-- Of a file with one header, a front without the data gives the header, and one that ends in the
header gives none. -/
theorem readsFront_headers_imageUnit :
    let whole : SeekableFile := .ofBytes imageUnit.bytes
    let dataless : SeekableFile := .ofBytes imageUnit.headerBytes
    let endless : SeekableFile := .ofBytes imageUnit.cards.flatten
    headers whole = .ok [imageUnit.header]
      ∧ (dataless.bytes <+: whole.bytes ∧ whole.maxOffset ≤ dataless.maxOffset)
      ∧ headers dataless = .ok [imageUnit.header]
      ∧ (endless.bytes <+: whole.bytes ∧ whole.maxOffset ≤ endless.maxOffset)
      ∧ ReadsFront 0 [imageUnit.header] (headers endless) ∧ headers endless ≠ .ok [] := by
  intro whole dataless endless
  have hframed := isUnit_imageUnit.framed
  obtain ⟨shape, hgives, hfits, hdata⟩ := isUnit_imageUnit.sized
  have hsize : imageUnit.header.byteCount 0 = .ok imageUnit.data.length := by
    rw [hdata]
    exact Header.byteCount_eq 0 hgives hfits
  have hwhole : headers whole = .ok [imageUnit.header] := headers_single hframed hsize
  have hlength : imageUnit.bytes.length = 5760 := FileUnit.length_bytes hframed
  have hmax : ∀ bytes, whole.maxOffset ≤ (SeekableFile.ofBytes bytes).maxOffset := by
    intro bytes
    apply Nat.max_le.mpr
    constructor
    · rw [hlength]
      exact Nat.le_trans (by decide) (Nat.le_max_right bytes.length _)
    · exact Nat.le_max_right bytes.length _
  have hheader : imageUnit.headerBytes.length = 2880 :=
    blocks_eq hframed.inner hframed.last hframed.headerWhole.1 hframed.headerWhole.2
  have hfound : headerAt 0 (imageUnit.headerBytes ++ []) = .ok (some (imageUnit.header, 1)) :=
    headerAt_eq hframed.inner hframed.last hframed.opening hframed.headerWhole.1
      hframed.headerWhole.2 []
  have hround : roundAt dataless 0 0 = .ok (some (imageUnit.header, 5760)) := by
    have hnext : ¬ dataless.maxOffset < 5760 :=
      Nat.not_lt.mpr (Nat.le_trans (by decide) (Nat.le_max_right dataless.bytes.length _))
    rw [List.append_nil] at hfound
    rw [roundAt, List.drop_zero, show dataless.bytes = imageUnit.headerBytes from rfl, hfound,
      ok_bind]
    dsimp only
    rw [hsize, ok_bind]
    exact if_neg hnext
  have hwalk : Walks dataless 0 0 1 (.ok [imageUnit.header]) := by
    have hpast : Walks dataless 1 5760 0 (.ok []) :=
      .past (by show imageUnit.headerBytes.length ≤ 5760; omega)
    exact .next (by show 0 < imageUnit.headerBytes.length; omega) hround hpast
  obtain ⟨hcut, -⟩ := readsFront_headers_and_rounds_le whole
  obtain ⟨-, -, -, hread⟩ := readsFront_headers_and_rounds_le dataless
  have hdataless : dataless.bytes <+: whole.bytes := List.prefix_append _ _
  have hendless : endless.bytes <+: whole.bytes :=
    (List.prefix_append imageUnit.cards.flatten _).trans hdataless
  exact ⟨hwhole, ⟨hdataless, hmax _⟩, (hread 1 _ hwalk).2, ⟨hendless, hmax _⟩,
    hcut _ hwhole endless hendless (hmax _)⟩

end WorkflowControl.Fits
