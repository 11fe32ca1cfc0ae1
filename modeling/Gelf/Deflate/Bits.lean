/-!
# Bits

Numbers and octets as bits, and readers that take bits off the front of octets. The bits of a number
stand with the lowest first, and those of a code with the highest first.
-/

namespace Gelf.Deflate

/-- The `n` lowest bits of a number. -/
def numberBits : Nat → Nat → List Bool
  | 0, _ => []
  | n + 1, k => decide (k % 2 = 1) :: numberBits n (k / 2)

/-- The `n` lowest bits of a code. -/
def codeBits : Nat → Nat → List Bool
  | 0, _ => []
  | n + 1, code => code.testBit n :: codeBits n code

/-- The number with these bits. -/
def ofBits : List Bool → Nat
  | [] => 0
  | bit :: bits => bit.toNat + 2 * ofBits bits

/-- Puts octets with these bits behind `out`. The last one is filled up with zeros. -/
def pack (out : Array UInt8) (bits : List Bool) : Array UInt8 :=
  match bits with
  | [] => out
  | bit :: rest => pack (out.push (.ofNat (ofBits (bit :: rest.take 7)))) (rest.drop 7)
termination_by bits.length
decreasing_by simp only [List.length_cons, List.length_drop]; omega

/-- What is left to read: the bits left of an octet already begun, and the octets behind it. -/
structure Bits where
  pending : List Bool
  rest : List UInt8
  isPartial : pending.length < 8

/-- Octets none of which is begun. -/
def Bits.ofOctets (rest : List UInt8) : Bits :=
  { pending := [], rest, isPartial := Nat.zero_lt_succ 7 }

abbrev Reader := StateT Bits Option

namespace Reader

def bit : Reader Bool
  | ⟨bit :: pending, rest, h⟩ => some (bit, ⟨pending, rest, Nat.lt_of_succ_lt h⟩)
  | ⟨[], b :: rest, _⟩ =>
    some (decide (b.toNat % 2 = 1), ⟨numberBits 7 (b.toNat / 2), rest, Nat.lt_succ_self 7⟩)
  | ⟨[], [], _⟩ => none

/-- A number of `n` bits. -/
def number : Nat → Reader Nat
  | 0 => return 0
  | n + 1 => do
    let first ← bit
    let k ← number n
    return first.toNat + 2 * k

end Reader

end Gelf.Deflate
