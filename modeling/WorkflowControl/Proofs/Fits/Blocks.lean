import WorkflowControl.Fits.File

/-!
Reading the blocks of a header. The cards of a header are read one by one, whichever block they are
in: a block takes 36 of them, so a header is read to its last card in as many blocks as its cards
need (`readBlocks_eq`). What stands behind the last card does not count.
-/

namespace WorkflowControl.Fits

/-- What a card adds to a header. -/
def Card.keyed? : Card → Option (Text × Text)
  | .value keyword text => some (keyword, text)
  | _ => none

/-- The value cards among some cards, in order. -/
def valueCards (cards : List (List UInt8)) : Entries Text :=
  cards.filterMap fun card => (Card.ofBytes card).keyed?

/-- Whether cards are as long as cards are, and none of them is the last one of a header. -/
structure AreInner (cards : List (List UInt8)) : Prop where
  length : ∀ card ∈ cards, card.length = cardSize
  not_last : ∀ card ∈ cards, Card.ofBytes card ≠ .last

/-- Whether a card ends a header. -/
structure IsLast (card : List UInt8) : Prop where
  length : card.length = cardSize
  last : Card.ofBytes card = .last

variable {cards : List (List UInt8)} {closing : List UInt8}

/-- The value cards can be told from what the cards say. -/
theorem valueCards_eq {read : List Card} (h : cards.map Card.ofBytes = read) :
    valueCards cards = read.filterMap Card.keyed? := by
  rw [← h, List.filterMap_map]
  rfl

theorem areInner_of_map {read : List Card} (hlength : ∀ card ∈ cards, card.length = cardSize)
    (h : cards.map Card.ofBytes = read) (hlast : Card.last ∉ read) : AreInner cards := by
  refine ⟨hlength, fun card hcard hread => hlast ?_⟩
  rw [← h, ← hread]
  exact List.mem_map_of_mem hcard

theorem valueCards_append (cards more : List (List UInt8)) :
    valueCards (cards ++ more) = valueCards cards ++ valueCards more :=
  List.filterMap_append

theorem AreInner.of_cons {card : List UInt8} (h : AreInner (card :: cards)) : AreInner cards :=
  ⟨fun c hc => h.length c (List.mem_cons_of_mem _ hc),
    fun c hc => h.not_last c (List.mem_cons_of_mem _ hc)⟩

theorem AreInner.of_append {more : List (List UInt8)} (h : AreInner (cards ++ more)) :
    AreInner cards ∧ AreInner more :=
  ⟨⟨fun c hc => h.length c (List.mem_append_left _ hc),
      fun c hc => h.not_last c (List.mem_append_left _ hc)⟩,
    ⟨fun c hc => h.length c (List.mem_append_right _ hc),
      fun c hc => h.not_last c (List.mem_append_right _ hc)⟩⟩

theorem AreInner.length_flatten (h : AreInner cards) :
    cards.flatten.length = cards.length * cardSize := by
  induction cards with
  | nil => rfl
  | cons card rest ih =>
    rw [List.flatten_cons, List.length_append, ih h.of_cons, h.length card List.mem_cons_self,
      List.length_cons, Nat.succ_mul, Nat.add_comm]

/-- The cards before the last one are read one after the other. -/
theorem readCards_inner (h : AreInner cards) (count : Nat) (rest : List UInt8)
    (before : Entries Text) :
    readCards (cards.length + count) (cards.flatten ++ rest) before
      = readCards count rest (before ++ valueCards cards) := by
  induction cards generalizing before with
  | nil => rw [List.length_nil, Nat.zero_add, List.flatten_nil, List.nil_append, valueCards,
      List.filterMap_nil, List.append_nil]
  | cons card others ih =>
    have hlength := h.length card List.mem_cons_self
    have hnot := h.not_last card List.mem_cons_self
    have hcount : (card :: others).length + count = others.length + count + 1 := by
      rw [List.length_cons, Nat.add_right_comm]
    rw [hcount, List.flatten_cons, List.append_assoc, readCards, List.take_left' hlength,
      List.drop_left' hlength, valueCards, List.filterMap_cons]
    cases hcard : Card.ofBytes card with
    | last => exact absurd hcard hnot
    | value keyword value =>
      have hrest := ih h.of_cons (before ++ [(keyword, value)])
      rwa [List.append_assoc] at hrest
    | other => exact ih h.of_cons before

theorem readCards_last (h : IsLast closing) (count : Nat) (rest : List UInt8)
    (before : Entries Text) : readCards (count + 1) (closing ++ rest) before = (before, true) := by
  rw [readCards, List.take_left' h.length, h.last]

/-- A block that the header goes beyond gives its cards. -/
theorem readBlocks_full (h : AreInner cards) (hfull : cards.length = blockSize / cardSize)
    (count : Nat) (rest : List UInt8) (before : Entries Text) (blocks : Nat) :
    readBlocks (count + 1) (cards.flatten ++ rest) before blocks
      = readBlocks count rest (before ++ valueCards cards) (blocks + 1) := by
  have hlength : cards.flatten.length = blockSize := by
    rw [h.length_flatten, hfull]
    rfl
  have hcards := readCards_inner h 0 [] before
  rw [List.append_nil, Nat.add_zero, hfull] at hcards
  rw [readBlocks, List.take_left' hlength, List.drop_left' hlength, hcards]
  rfl

/-- The block with the last card ends the header. -/
theorem readBlocks_last (h : AreInner cards) (hlast : IsLast closing)
    (hless : cards.length < blockSize / cardSize) (count : Nat) (rest : List UInt8)
    (before : Entries Text) (blocks : Nat) :
    readBlocks (count + 1) (cards.flatten ++ (closing ++ rest)) before blocks
      = some (⟨before ++ valueCards cards⟩, blocks + 1) := by
  obtain ⟨others, hothers⟩ : ∃ others, blockSize / cardSize = cards.length + (others + 1) :=
    ⟨blockSize / cardSize - cards.length - 1, by omega⟩
  have hlength : (cards.flatten ++ closing).length ≤ blockSize := by
    rw [List.length_append, h.length_flatten, hlast.length]
    show cards.length * 80 + 80 ≤ 2880
    change cards.length < 36 at hless
    omega
  have hblock : (cards.flatten ++ (closing ++ rest)).take blockSize
      = cards.flatten
        ++ (closing ++ rest.take (blockSize - (cards.flatten ++ closing).length)) := by
    rw [← List.append_assoc, List.take_append, List.take_of_length_le hlength, List.append_assoc]
  rw [readBlocks, hblock, hothers, readCards_inner h, readCards_last hlast]

/-- A header is read to its last card, in as many blocks as that takes. -/
theorem readBlocks_eq (h : AreInner cards) (hlast : IsLast closing) (rest : List UInt8)
    {count : Nat} (hcount : cards.length / (blockSize / cardSize) < count) (before : Entries Text)
    (blocks : Nat) :
    readBlocks count (cards.flatten ++ (closing ++ rest)) before blocks
      = some (⟨before ++ valueCards cards⟩,
          blocks + cards.length / (blockSize / cardSize) + 1) := by
  induction count generalizing cards before blocks with
  | zero => exact absurd hcount (Nat.not_lt_zero _)
  | succ count ih =>
    by_cases hless : cards.length < blockSize / cardSize
    · rw [readBlocks_last h hlast hless, Nat.div_eq_of_lt hless, Nat.add_zero]
    · -- The cards of this block, and those of the blocks behind it.
      have hparts := List.take_append_drop (blockSize / cardSize) cards
      have hfull : (cards.take (blockSize / cardSize)).length = blockSize / cardSize := by
        rw [List.length_take]
        omega
      have hdrop : (cards.drop (blockSize / cardSize)).length / (blockSize / cardSize) + 1
          = cards.length / (blockSize / cardSize) := by
        rw [List.length_drop]
        show (cards.length - 36) / 36 + 1 = cards.length / 36
        change ¬ cards.length < 36 at hless
        omega
      have hbytes : cards.flatten = (cards.take (blockSize / cardSize)).flatten
          ++ (cards.drop (blockSize / cardSize)).flatten := by
        rw [← List.flatten_append, hparts]
      have hvalues : valueCards cards = valueCards (cards.take (blockSize / cardSize))
          ++ valueCards (cards.drop (blockSize / cardSize)) := by
        rw [← valueCards_append, hparts]
      rw [← hparts] at h
      obtain ⟨hfirst, hmore⟩ := h.of_append
      rw [hbytes, List.append_assoc, readBlocks_full hfirst hfull, ih hmore (by omega), hvalues,
        List.append_assoc, ← hdrop, Nat.add_assoc blocks 1, Nat.add_comm 1]

/-- A header that is filled up to whole blocks has as many of them as its cards need. -/
theorem blocks_eq (h : AreInner cards) (hlast : IsLast closing) {filling : List UInt8}
    (hfilling : filling.length < blockSize)
    (hwhole : blockSize ∣ (cards.flatten ++ (closing ++ filling)).length) :
    (cards.flatten ++ (closing ++ filling)).length
      = (cards.length / (blockSize / cardSize) + 1) * blockSize := by
  obtain ⟨blocks, hblocks⟩ := hwhole
  rw [hblocks]
  rw [List.length_append, List.length_append, h.length_flatten, hlast.length] at hblocks
  show 2880 * blocks = (cards.length / 36 + 1) * 2880
  change cards.length * 80 + (80 + filling.length) = 2880 * blocks at hblocks
  change filling.length < 2880 at hfilling
  omega

/-- Bytes that begin with a header, filled up to whole blocks, are read as that header. -/
theorem headerAt_eq {index : Nat} (h : AreInner cards) (hlast : IsLast closing)
    (hopening : ∃ first ∈ cards.head?, openingBytes index <+: first) {filling : List UInt8}
    (hfilling : filling.length < blockSize)
    (hwhole : blockSize ∣ (cards.flatten ++ (closing ++ filling)).length) (rest : List UInt8) :
    headerAt index (cards.flatten ++ (closing ++ filling) ++ rest)
      = .ok (some (⟨valueCards cards⟩, cards.length / (blockSize / cardSize) + 1)) := by
  have hblocks := blocks_eq h hlast hfilling hwhole
  have hlength : (cards.length / (blockSize / cardSize) + 1) * blockSize
      ≤ (cards.flatten ++ (closing ++ filling) ++ rest).length := by
    rw [← hblocks]
    exact (List.prefix_append _ rest).length_le
  have hprefix : openingBytes index <+: cards.flatten ++ (closing ++ filling) ++ rest := by
    obtain ⟨first, hfirst, hstart⟩ := hopening
    obtain ⟨others, rfl⟩ := List.head?_eq_some_iff.mp hfirst
    refine hstart.trans ?_
    rw [List.flatten_cons, List.append_assoc, List.append_assoc]
    exact List.prefix_append first _
  have hstarts : ((cards.flatten ++ (closing ++ filling) ++ rest).length < blockSize
      || !(openingBytes index).isPrefixOf (cards.flatten ++ (closing ++ filling) ++ rest))
        = false := by
    rw [Bool.or_eq_false_iff, decide_eq_false_iff_not, Bool.not_eq_false',
      List.isPrefixOf_iff_prefix, Nat.not_lt]
    exact ⟨Nat.le_trans (Nat.le_mul_of_pos_left _ (Nat.succ_pos _)) hlength, hprefix⟩
  have hcount : cards.length / (blockSize / cardSize)
      < (cards.flatten ++ (closing ++ filling) ++ rest).length / blockSize :=
    (Nat.le_div_iff_mul_le (by decide)).mpr hlength
  have hread := readBlocks_eq h hlast (filling ++ rest) hcount [] 0
  have hbytes : cards.flatten ++ (closing ++ (filling ++ rest))
      = cards.flatten ++ (closing ++ filling) ++ rest := by
    rw [List.append_assoc, List.append_assoc]
  rw [hbytes, List.nil_append, Nat.zero_add] at hread
  rw [headerAt, hstarts, hread]
  rfl

/-- The blocks of some bytes are those that hold them, once they are filled up. -/
theorem wholeBlocks_eq {bytes filling : List UInt8} (hfilling : filling.length < blockSize)
    (hwhole : blockSize ∣ (bytes ++ filling).length) :
    wholeBlocks bytes.length = (bytes ++ filling).length := by
  obtain ⟨blocks, hblocks⟩ := hwhole
  rw [hblocks]
  rw [List.length_append] at hblocks
  show (bytes.length + 2880 - 1) / 2880 * 2880 = 2880 * blocks
  change filling.length < 2880 at hfilling
  change bytes.length + filling.length = 2880 * blocks at hblocks
  omega

end WorkflowControl.Fits
