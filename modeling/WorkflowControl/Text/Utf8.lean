import WorkflowControl.Text.Basic

/-!
Reading bytes as UTF-8. `pieces` cuts a byte sequence into its characters; where the bytes are not
well formed, the longest start of a character is one piece without a character, and a byte that
starts none is a piece of its own. The strict reading refuses such a piece and the lenient one
puts the replacement character in its place.
-/

namespace WorkflowControl.Text

/-- Whether `b` is a continuation byte. -/
def isContinuation (b : UInt8) : Bool := decide (0x80 ≤ b) && decide (b ≤ 0xBF)

/-- Whether `b` may follow the first byte `first` of a character of three or four bytes. This
shuts out the forms that are longer than needed, the surrogates and the code points above the last
one. -/
def mayFollow (first b : UInt8) : Bool :=
  if first = 0xE0 then decide (0xA0 ≤ b) && decide (b ≤ 0xBF)
  else if first = 0xED then decide (0x80 ≤ b) && decide (b ≤ 0x9F)
  else if first = 0xF0 then decide (0x90 ≤ b) && decide (b ≤ 0xBF)
  else if first = 0xF4 then decide (0x80 ≤ b) && decide (b ≤ 0x8F)
  else isContinuation b

/-- The six bits that a continuation byte carries. -/
def payload (b : UInt8) : Nat := b.toNat % 64

/-- Goes on with a character of which `size` bytes are read and give `code`, and `count` bytes are
to come, the next of which has to be `allowed`: the character, if the bytes are, and the number of
bytes read. -/
def readRest (allowed : UInt8 → Bool) (code size : Nat) : Nat → List UInt8 → Option Char × Nat
  | 0, _ => (some (Char.ofNat code), size)
  | _ + 1, [] => (none, size)
  | count + 1, b :: bs =>
    if allowed b then readRest isContinuation (code * 64 + payload b) (size + 1) count bs
    else (none, size)

/-- The piece that starts with the byte `b`: its character, if it is well formed, and the number
of bytes in it. -/
def firstPiece (b : UInt8) (rest : List UInt8) : Option Char × Nat :=
  if b < 0x80 then readRest isContinuation b.toNat 1 0 rest
  else if 0xC2 ≤ b && b ≤ 0xDF then readRest isContinuation (b.toNat % 32) 1 1 rest
  else if 0xE0 ≤ b && b ≤ 0xEF then readRest (mayFollow b) (b.toNat % 16) 1 2 rest
  else if 0xF0 ≤ b && b ≤ 0xF4 then readRest (mayFollow b) (b.toNat % 8) 1 3 rest
  else (none, 1)

/-- The pieces of the bytes behind the first `skip` ones. -/
def piecesFrom : Nat → List UInt8 → List (Option Char)
  | _, [] => []
  | skip + 1, _ :: bs => piecesFrom skip bs
  | 0, b :: bs =>
    let (c, size) := firstPiece b bs
    c :: piecesFrom (size - 1) bs

/-- The pieces of a byte sequence. -/
def pieces (bytes : List UInt8) : List (Option Char) := piecesFrom 0 bytes

/-- The text that well-formed bytes hold. -/
def decode? (bytes : List UInt8) : Option Text := (pieces bytes).mapM id

/-- The text that any bytes hold, with the replacement character for what is not well formed. -/
def decodeLossy (bytes : List UInt8) : Text :=
  (pieces bytes).map fun c => c.getD (Char.ofNat 0xFFFD)

/-- Cuts a text at a place given in bytes of its encoding, if a character starts or the text ends
there. -/
def splitAtByte : Nat → Text → Option (Text × Text)
  | 0, t => some ([], t)
  | _ + 1, [] => none
  | n + 1, c :: cs =>
    if c.utf8Size ≤ n + 1 then
      (splitAtByte (n + 1 - c.utf8Size) cs).map fun p => (c :: p.1, p.2)
    else none

end WorkflowControl.Text
