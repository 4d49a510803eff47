import WorkflowControl.File.Basic
import WorkflowControl.Fits.Header
import WorkflowControl.Header.Source

/-!
FITS files: units of a header and its data, one after the other. A header is a run of blocks up to
its `END` card; the first one starts with `SIMPLE` and the others with `XTENSION`. What follows
the last unit and does not start so is not looked at.

A value is looked up in the headers in order, so the first header that has the keyword decides.
-/

namespace WorkflowControl.Fits

/-- The bytes that a header starts with, by its number. -/
def openingBytes (index : Nat) : List UInt8 :=
  if index = 0 then [0x53, 0x49, 0x4D, 0x50, 0x4C, 0x45]
  else [0x58, 0x54, 0x45, 0x4E, 0x53, 0x49, 0x4F, 0x4E]

/-- The value cards of `count` cards from the start of `bytes`, added to `cards`, and whether the
last card of the header is among them. -/
def readCards : (count : Nat) → List UInt8 → Entries Text → Entries Text × Bool
  | 0, _, cards => (cards, false)
  | count + 1, bytes, cards =>
    match Card.ofBytes (bytes.take cardSize) with
    | .last => (cards, true)
    | .value keyword value => readCards count (bytes.drop cardSize) (cards ++ [(keyword, value)])
    | .other => readCards count (bytes.drop cardSize) cards

/-- The header that starts with `cards` and goes on in the blocks of `bytes`, at most `count` of
them, with the number of blocks up to its end; none if the bytes end before. -/
def readBlocks : (count : Nat) → List UInt8 → Entries Text → (blocks : Nat) → Option (Header × Nat)
  | 0, _, _, _ => none
  | count + 1, bytes, cards, blocks =>
    match readCards (blockSize / cardSize) (bytes.take blockSize) cards with
    | (cards, true) => some (⟨cards⟩, blocks + 1)
    | (cards, false) => readBlocks count (bytes.drop blockSize) cards (blocks + 1)

/-- The header number `index` at the start of `bytes` and its number of blocks. There is none
where the bytes do not start like a header, which for the first one is a fault. -/
def headerAt (index : Nat) (bytes : List UInt8) : Except Fault (Option (Header × Nat)) :=
  if bytes.length < blockSize || !(openingBytes index).isPrefixOf bytes then
    if index = 0 then .error .notFits else .ok none
  else
    match readBlocks (bytes.length / blockSize) bytes [] 0 with
    | some found => .ok (some found)
    | none => .error (.truncated index)

/-- The least number of whole blocks' bytes that holds `size` bytes. -/
def wholeBlocks (size : Nat) : Nat := (size + blockSize - 1) / blockSize * blockSize

/-- The headers from number `index` on, where `bytes` are those of the file from `offset` on.
There are no more headers than `budget`, and each is a block long at least. The next header is
behind the data of this one, which cannot be gone to beyond the greatest offset. -/
def readUnits (maxOffset : Nat) :
    (budget index offset : Nat) → List UInt8 → Except Fault (List Header)
  | 0, _, _, _ => .ok []
  | budget + 1, index, offset, bytes =>
    if bytes.isEmpty then .ok []
    else do
      match ← headerAt index bytes with
      | none => .ok []
      | some (header, blocks) => do
        let data ← header.byteCount index
        let size := blocks * blockSize + wholeBlocks data
        if maxOffset < offset + size then .error (.unreadable .invalidOffset)
        else
          let rest ← readUnits maxOffset budget (index + 1) (offset + size) (bytes.drop size)
          .ok (header :: rest)

/-- The headers of a file. A file without any is no FITS file. -/
def headers (file : SeekableFile) : Except Fault (List Header) := do
  let budget := file.bytes.length / blockSize + 1
  match ← readUnits file.maxOffset budget 0 0 file.bytes with
  | [] => .error .notFits
  | headers => .ok headers

/-- The value of a keyword in the first header that has it. -/
def valueIn (headers : List Header) (keyword : Text) : Except Fault Text :=
  match headers.findSome? fun h => h.get? keyword with
  | some value => .ok value
  | none => .error (.missingKeyword keyword)

/-- The headers of the file at a path. -/
def fileHeaders (read : ReadBytes) (path : Text) : Except Fault (List Header) := do
  let bytes ← (read path).mapError .unreadable
  headers (.ofBytes bytes)

/-- The values of keywords of the file at a path, which is read once. -/
def fileValues (read : ReadBytes) (path : Text) (keywords : List Text) :
    Except Fault (List Text) := do
  let headers ← fileHeaders read path
  keywords.mapM (valueIn headers)

/-- The header values of FITS files. -/
def headerSource (read : ReadBytes) : HeaderSource where
  value path key :=
    ((fileHeaders read path).bind fun headers => valueIn headers key).mapError .fits
  values path keys := (fileValues read path keys).mapError .fits

end WorkflowControl.Fits
