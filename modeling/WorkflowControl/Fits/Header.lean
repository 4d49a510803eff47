import WorkflowControl.Entries
import WorkflowControl.Fits.Card
import WorkflowControl.Fits.Fault
import WorkflowControl.Text.Integer

/-!
Headers of FITS files and the size of the data behind each. The size follows from the keywords of
the header: the product of the axes, plus the parameters, times the groups, times the bits of an
element. All of it is reckoned in words of 64 bits, and a product that leaves them is a fault of
the header.
-/

namespace WorkflowControl.Fits

/-- The bytes of a block. Headers and data fill whole blocks. -/
def blockSize : Nat := 2880

/-- The bytes of a card. -/
def cardSize : Nat := 80

/-- The value cards of one header in order, with keywords in uppercase. A keyword may come twice.
-/
structure Header where
  cards : Entries Text := []
  deriving DecidableEq, Repr

namespace Header

/-- The value of the first card with a keyword, in any case. -/
def get? (h : Header) (keyword : Text) : Option Text := h.cards.get? keyword.upper

/-- The number of value cards. -/
def size (h : Header) : Nat := h.cards.length

/-- Whether there is no value card. -/
def isEmpty (h : Header) : Bool := h.cards.isEmpty

/-- The integer under a keyword of header number `index`, or `default` where the keyword is
missing. -/
def integer (h : Header) (index : Nat) (keyword : Text) (default : Option Int) :
    Except Fault Int :=
  match h.get? keyword with
  | some value =>
    match Text.signed? value with
    | some z => .ok z
    | none => .error (.invalidKeyword index keyword value)
  | none =>
    match default with
    | some z => .ok z
    | none => .error (.invalidKeyword index keyword [])

/-- An integer that fits a word of 64 bits. -/
def word? (z : Int) : Option Int := if Text.fitsWord z then some z else none

/-- The magnitude of a word as a word: that of the least one does not fit and is the least one
again. -/
def magnitude (z : Int) : Int := if z = -Text.wordEnd then z else z.natAbs

/-- The keyword of the length of an axis. -/
def axisKeyword (axis : Nat) : Text := ['N', 'A', 'X', 'I', 'S'] ++ Text.ofNat axis

/-- The product of `elements` with the lengths of `count` axes, from number `axis` on. -/
def axesProduct (h : Header) (index axis : Nat) (elements : Int) : Nat → Except Fault Int
  | 0 => .ok elements
  | count + 1 => do
    let length ← h.integer index (axisKeyword axis) none
    match word? (elements * length) with
    | some product => h.axesProduct index (axis + 1) product count
    | none => .error (.invalidKeyword index (axisKeyword axis) (Text.ofInt length))

/-- The number of bits of the data: the elements of all axes and the parameters, for each group.
-/
def bitCount? (elements parameters groups bits : Int) : Option Int := do
  let all ← word? (parameters + elements)
  let grouped ← word? (all * groups)
  word? (grouped * magnitude bits)

/-- The number of bytes of the data behind header number `index`. Without axes there are none, and
a negative count is none. -/
def byteCount (h : Header) (index : Nat) : Except Fault Nat := do
  let axes ← h.integer index ['N', 'A', 'X', 'I', 'S'] (some 0)
  if axes = 0 then .ok 0
  else
    let bits ← h.integer index ['B', 'I', 'T', 'P', 'I', 'X'] none
    let parameters ← h.integer index ['P', 'C', 'O', 'U', 'N', 'T'] (some 0)
    let groupsKeyword : Text := ['G', 'C', 'O', 'U', 'N', 'T']
    let groups ← h.integer index groupsKeyword (some 1)
    let elements ← h.axesProduct index 1 1 axes.toNat
    match bitCount? elements parameters groups bits with
    | some total => .ok (total.tdiv 8).toNat
    | none => .error (.invalidKeyword index groupsKeyword (Text.ofInt groups))

end Header

end WorkflowControl.Fits
