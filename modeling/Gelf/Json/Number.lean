import Gelf.Decimal.Finite

/-!
# Numbers of JSON values

An integer of 64 bits, signed or unsigned, or a finite float. The two kinds are told apart: `1` is
an integer and `1.0` is not.
-/

namespace Gelf.Json

/-- An integer that fits in 64 bits, with a sign or without. -/
structure Integer where
  val : Int
  lower : -0x8000000000000000 ≤ val
  upper : val < 0x10000000000000000
  deriving DecidableEq

namespace Integer

def ofInt? (n : Int) : Option Integer :=
  if h : -0x8000000000000000 ≤ n ∧ n < 0x10000000000000000 then some ⟨n, h.1, h.2⟩ else none

@[simp]
theorem ofInt?_val (n : Integer) : ofInt? n.val = some n := by
  rw [ofInt?, dif_pos ⟨n.lower, n.upper⟩]

def ofUInt64 (n : UInt64) : Integer :=
  ⟨n.toNat, by have := n.toNat_lt; omega, by have := n.toNat_lt; omega⟩

def ofInt64 (n : Int64) : Integer :=
  ⟨n.toInt, by have := n.minValue_le_toInt; simpa using this, by
    have := n.toInt_lt; omega⟩

def toFloat (n : Integer) : Float :=
  if n.val < 0 then -(UInt64.ofNat n.val.natAbs).toFloat else (UInt64.ofNat n.val.natAbs).toFloat

end Integer

inductive Number
  | integer (n : Integer)
  | real (x : FiniteFloat)
  deriving DecidableEq

namespace Number

def toFloat : Number → Float
  | .integer n => n.toFloat
  | .real x => x.val

end Number

end Gelf.Json
