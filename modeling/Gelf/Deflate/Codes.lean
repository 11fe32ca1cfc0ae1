import Gelf.Deflate.Bits

/-!
# Prefix codes

A prefix code in canonical order is given by the lengths of its codes. Codes of one length are
consecutive, in the order of their symbols, and shorter codes come first. A symbol with length zero
has no code.
-/

namespace Gelf.Deflate

/-- How many numbers of `n` bits begin with a code. The next number of `n + 1` bits is the first
code of that length. -/
def codeSpace (lengths : List Nat) : Nat → Nat
  | 0 => 0
  | n + 1 => 2 * codeSpace lengths n + lengths.count (n + 1)

/-- The code of a symbol as a number, when the codes of its length are one bit longer than `n`. -/
def codeNumber (lengths : List Nat) (symbol n : Nat) : Nat :=
  2 * codeSpace lengths n + (lengths.take symbol).count (n + 1)

/-- The code of each symbol as it is sent. -/
def codesOf (lengths : List Nat) : Array (List Bool) :=
  (lengths.zipIdx.map fun (length, symbol) =>
    match length with
    | 0 => []
    | n + 1 => codeBits (n + 1) (codeNumber lengths symbol n)).toArray

/-- The symbols of a code by the lengths of their codes, from one bit on. -/
abbrev Code := List (Array Nat)

namespace Code

/-- The symbols whose codes have `n` bits. -/
def ofLength (lengths : List Nat) (n : Nat) : List Nat :=
  lengths.zipIdx.filterMap fun (length, symbol) => if length = n then some symbol else none

def ofLengths (lengths : List Nat) : Code :=
  (List.range 15).map fun n => (ofLength lengths (n + 1)).toArray

/-- Reads a code bit by bit. `first` is the first code of the present length, and `code` what was
read so far. -/
def symbolFrom : Code → Nat → Nat → Reader Nat
  | [], _, _ => failure
  | symbols :: longer, first, code => do
    let bit ← Reader.bit
    let code := 2 * code + bit.toNat
    if code < first + symbols.size then symbols[code - first]?
    else symbolFrom longer (2 * (first + symbols.size)) code

def symbol (code : Code) : Reader Nat := symbolFrom code 0 0

end Code

end Gelf.Deflate
