import Gelf.Checksum
import Mathlib.Algebra.CharP.Two
import Mathlib.Algebra.Field.ZMod
import Mathlib.RingTheory.AdjoinRoot
import Mathlib.Tactic.ComputeDegree
import Mathlib.Tactic.LinearCombination

/-!
# What the checksums say

The CRC-32 of data is a remainder of polynomials over the field with two elements: a register is the
polynomial of its bits, and taking in one bit multiplies it by the indeterminate. The Adler-32 of
data is a pair of sums.
-/

namespace Gelf

open Polynomial

/-! ### Polynomials of bits -/

/-- The polynomial of bits, with the first bit at the highest power. -/
noncomputable def bitPoly : List Bool → (ZMod 2)[X]
  | [] => 0
  | b :: bs => (if b then X ^ bs.length else 0) + bitPoly bs

theorem bitPoly_append (as bs : List Bool) :
    bitPoly (as ++ bs) = X ^ bs.length * bitPoly as + bitPoly bs := by
  induction as with
  | nil => simp [bitPoly]
  | cons a as ih =>
    rw [List.cons_append, bitPoly, ih, bitPoly, List.length_append]
    split <;> ring

theorem bitPoly_replicate_false (n : Nat) : bitPoly (List.replicate n false) = 0 := by
  induction n with
  | zero => rfl
  | succ n ih => rw [List.replicate_succ, bitPoly, ih, if_neg (by decide), add_zero]

theorem bitPoly_xor {as bs : List Bool} (h : as.length = bs.length) :
    bitPoly (List.zipWith (· ^^ ·) as bs) = bitPoly as + bitPoly bs := by
  induction as generalizing bs with
  | nil => simp [bitPoly, List.length_eq_zero_iff.1 h.symm]
  | cons a as ih =>
    cases bs with
    | nil => simp at h
    | cons b bs =>
      have hlength : as.length = bs.length := Nat.succ.inj h
      have htwice : (X ^ bs.length : (ZMod 2)[X]) + X ^ bs.length = 0 := CharTwo.add_self_eq_zero _
      rw [List.zipWith_cons_cons, bitPoly, bitPoly, bitPoly, ih hlength, List.length_zipWith,
        hlength, Nat.min_self]
      cases a <;> cases b
      · simp
      · simp only [Bool.false_xor, if_true, Bool.false_eq_true, if_false]
        ring
      · simp only [Bool.xor_false, if_true, Bool.false_eq_true, if_false]
        ring
      · simp only [Bool.xor_self, if_true, Bool.false_eq_true, if_false]
        linear_combination -htwice

theorem bitPoly_map_not (bs : List Bool) :
    bitPoly (bs.map not) = bitPoly bs + bitPoly (List.replicate bs.length true) := by
  rw [← bitPoly_xor (List.length_replicate).symm]
  congr 1
  induction bs with
  | nil => rfl
  | cons b bs ih => simp [List.replicate_succ, ← ih]

theorem degree_bitPoly_lt (bs : List Bool) : (bitPoly bs).degree < bs.length := by
  induction bs with
  | nil => simp [bitPoly]
  | cons b bs ih =>
    have hlength : (bs.length : WithBot ℕ) < (b :: bs).length :=
      Nat.cast_lt.2 (Nat.lt_succ_self _)
    rw [bitPoly]
    refine (degree_add_le _ _).trans_lt (max_lt ?_ (ih.trans hlength))
    split
    · rwa [degree_X_pow]
    · simp

/-! ### Bits of words -/

/-- The lowest bits of a number, the lowest one first. -/
def lowBits (n k : Nat) : List Bool := (List.range n).map k.testBit

@[simp]
theorem length_lowBits (n k : Nat) : (lowBits n k).length = n := by
  rw [lowBits, List.length_map, List.length_range]

theorem lowBits_cons (n k : Nat) : lowBits (n + 1) k = k.testBit 0 :: lowBits n (k >>> 1) := by
  rw [lowBits, List.range_succ_eq_map, List.map_cons, List.map_map, lowBits]
  congr 1
  apply List.map_congr_left
  intro i _
  rw [Function.comp_apply, Nat.testBit_shiftRight, Nat.add_comm]

theorem lowBits_xor (n j k : Nat) :
    lowBits n (j ^^^ k) = List.zipWith (· ^^ ·) (lowBits n j) (lowBits n k) := by
  rw [lowBits, lowBits, lowBits, List.zipWith_map, List.zipWith_self]
  apply List.map_congr_left
  intro i _
  exact Nat.testBit_xor j k i

theorem lowBits_of_lt {m n k : Nat} (h : k < 2 ^ n) :
    lowBits (n + m) k = lowBits n k ++ List.replicate m false := by
  have hzero (i : Nat) : k.testBit (n + i) = false :=
    Nat.testBit_lt_two_pow (h.trans_le (Nat.pow_le_pow_right (by decide) (Nat.le_add_right n i)))
  rw [lowBits, List.range_add, List.map_append, List.map_map, lowBits]
  congr 1
  simp only [Function.comp_def, hzero, List.map_const', List.length_range]

/-! ### CRC-32 -/

/-- The polynomial that CRC-32 divides by. -/
noncomputable def crcDivisor : (ZMod 2)[X] :=
  X ^ 32 + X ^ 26 + X ^ 23 + X ^ 22 + X ^ 16 + X ^ 12 + X ^ 11 + X ^ 10 + X ^ 8 + X ^ 7 + X ^ 5 +
    X ^ 4 + X ^ 2 + X + 1

/-- The bits that CRC-32 divides: those of the octets, each from its lowest one on, and 32 zeros,
with the first 32 of all complemented. -/
def crcDividend (data : List UInt8) : List Bool :=
  let bits := data.flatMap (fun b => lowBits 8 b.toNat) ++ List.replicate 32 false
  (bits.take 32).map not ++ bits.drop 32

/-- The complement of the checksum, from its lowest bit on, is the remainder. -/
def IsCrc32 (data : List UInt8) (crc : Nat) : Prop :=
  bitPoly ((lowBits 32 crc).map not) = bitPoly (crcDividend data) %ₘ crcDivisor

theorem monic_crcDivisor : crcDivisor.Monic := by
  unfold crcDivisor
  monicity!

theorem degree_crcDivisor : crcDivisor.degree = 32 := by
  unfold crcDivisor
  compute_degree!

theorem and_one_eq_one_iff (c : UInt32) : c &&& 1 = 1 ↔ c.toNat.testBit 0 = true := by
  rw [← UInt32.toNat_inj, UInt32.toNat_and, Nat.testBit_zero, decide_eq_true_iff]
  exact Nat.and_one_is_mod _ ▸ Iff.rfl

/-- A shift of the register multiplies by the indeterminate, and the divisor is taken off when the
degree gets too great. -/
theorem bitPoly_lowBits_crcBit (c : UInt32) :
    bitPoly (lowBits 32 (crcBit c).toNat) =
      X * bitPoly (lowBits 32 c.toNat) + if c.toNat.testBit 0 then crcDivisor else 0 := by
  have hlt : c.toNat >>> 1 < 2 ^ 31 := by
    have := c.toNat_lt
    rw [Nat.shiftRight_eq_div_pow]
    omega
  have hregister : bitPoly (lowBits 32 c.toNat) =
      (if c.toNat.testBit 0 then X ^ 31 else 0) + bitPoly (lowBits 31 (c.toNat >>> 1)) := by
    rw [lowBits_cons, bitPoly, length_lowBits]
  have hshifted : bitPoly (lowBits 32 (c.toNat >>> 1)) =
      X * bitPoly (lowBits 31 (c.toNat >>> 1)) := by
    rw [lowBits_of_lt (m := 1) hlt, bitPoly_append, bitPoly_replicate_false, add_zero,
      List.length_replicate, pow_one]
  have htaps : bitPoly (lowBits 32 0xedb88320) = crcDivisor + X ^ 32 := by
    have hbits : lowBits 32 0xedb88320 =
        [false, false, false, false, false, true, false, false,
          true, true, false, false, false, false, false, true,
          false, false, false, true, true, true, false, true,
          true, false, true, true, false, true, true, true] := by decide
    have htwice : (X ^ 32 : (ZMod 2)[X]) + X ^ 32 = 0 := CharTwo.add_self_eq_zero _
    simp only [hbits, bitPoly, List.length_cons, List.length_nil, if_true, Bool.false_eq_true,
      if_false, crcDivisor]
    linear_combination -htwice
  have hone : (1 : UInt32).toNat % 32 = 1 := rfl
  rw [crcBit]
  by_cases hlow : c.toNat.testBit 0 = true
  · rw [if_pos ((and_one_eq_one_iff c).2 hlow), UInt32.toNat_xor, UInt32.toNat_shiftRight, hone,
      lowBits_xor, bitPoly_xor (by simp), hshifted, hregister, if_pos hlow, if_pos hlow]
    refine (congrArg _ htaps).trans ?_
    ring
  · rw [if_neg (mt (and_one_eq_one_iff c).1 hlow), UInt32.toNat_shiftRight, hone, hshifted,
      hregister, if_neg hlow, if_neg hlow]
    ring

/-- Bits in the ring where the divisor is zero. -/
noncomputable def crcResidue (bits : List Bool) : AdjoinRoot crcDivisor :=
  AdjoinRoot.mk crcDivisor (bitPoly bits)

theorem crcResidue_append (as bs : List Bool) :
    crcResidue (as ++ bs) =
      AdjoinRoot.root crcDivisor ^ bs.length * crcResidue as + crcResidue bs := by
  simp only [crcResidue, bitPoly_append, map_add, map_mul, map_pow, AdjoinRoot.mk_X]

theorem crcResidue_replicate_false (n : Nat) : crcResidue (List.replicate n false) = 0 := by
  rw [crcResidue, bitPoly_replicate_false, map_zero]

theorem crcResidue_map_not (bs : List Bool) :
    crcResidue (bs.map not) = crcResidue bs + crcResidue (List.replicate bs.length true) := by
  simp only [crcResidue, bitPoly_map_not, map_add]

theorem crcResidue_crcBit (c : UInt32) :
    crcResidue (lowBits 32 (crcBit c).toNat) =
      AdjoinRoot.root crcDivisor * crcResidue (lowBits 32 c.toNat) := by
  rw [crcResidue, bitPoly_lowBits_crcBit, map_add, map_mul, AdjoinRoot.mk_X, crcResidue]
  split
  · rw [AdjoinRoot.mk_self, add_zero]
  · rw [map_zero, add_zero]

/-- One octet is taken in behind those before it. -/
theorem crcResidue_crcOctet (c : UInt32) (b : UInt8) :
    crcResidue (lowBits 32 (crcOctet c b).toNat) =
      AdjoinRoot.root crcDivisor ^ 8 * crcResidue (lowBits 32 c.toNat) +
        AdjoinRoot.root crcDivisor ^ 32 * crcResidue (lowBits 8 b.toNat) := by
  have hoctet : crcResidue (lowBits 32 b.toNat) =
      AdjoinRoot.root crcDivisor ^ 24 * crcResidue (lowBits 8 b.toNat) := by
    rw [lowBits_of_lt (n := 8) (m := 24) b.toNat_lt, crcResidue_append,
      crcResidue_replicate_false, add_zero, List.length_replicate]
  have hxor : crcResidue (lowBits 32 (c ^^^ b.toUInt32).toNat) =
      crcResidue (lowBits 32 c.toNat) + crcResidue (lowBits 32 b.toNat) := by
    rw [UInt32.toNat_xor, UInt8.toNat_toUInt32, lowBits_xor, crcResidue, bitPoly_xor (by simp),
      map_add, crcResidue, crcResidue]
  rw [crcOctet]
  simp only [crcResidue_crcBit, hxor, hoctet]
  ring

/-- **One pass.** The register holds the octets that were taken in, behind what it held before. -/
theorem crcResidue_foldl (data : List UInt8) (c : UInt32) :
    crcResidue (lowBits 32 (data.foldl crcOctet c).toNat) =
      AdjoinRoot.root crcDivisor ^ (8 * data.length) * crcResidue (lowBits 32 c.toNat) +
        AdjoinRoot.root crcDivisor ^ 32 *
          crcResidue (data.flatMap fun b => lowBits 8 b.toNat) := by
  induction data generalizing c with
  | nil => simp [crcResidue, bitPoly]
  | cons b data ih =>
    have hlength : (data.flatMap fun b => lowBits 8 b.toNat).length = 8 * data.length := by
      simp [List.length_flatMap, Nat.mul_comm]
    rw [List.foldl_cons, ih, crcResidue_crcOctet, List.flatMap_cons, crcResidue_append, hlength,
      List.length_cons]
    ring

theorem crcResidue_crcDividend (data : List UInt8) :
    crcResidue (crcDividend data) =
      AdjoinRoot.root crcDivisor ^ (8 * data.length) * crcResidue (List.replicate 32 true) +
        AdjoinRoot.root crcDivisor ^ 32 *
          crcResidue (data.flatMap fun b => lowBits 8 b.toNat) := by
  obtain ⟨bits, hbits⟩ : ∃ bits, bits = data.flatMap (fun b => lowBits 8 b.toNat) ++
    List.replicate 32 false := ⟨_, rfl⟩
  have hlength : bits.length = 8 * data.length + 32 := by
    simp [hbits, List.length_flatMap, Nat.mul_comm]
  have hparts : crcResidue bits = AdjoinRoot.root crcDivisor ^ (8 * data.length) *
      crcResidue (bits.take 32) + crcResidue (bits.drop 32) := by
    rw [← List.take_append_drop 32 bits, crcResidue_append]
    simp [hlength]
  have hdata : crcResidue bits = AdjoinRoot.root crcDivisor ^ 32 *
      crcResidue (data.flatMap fun b => lowBits 8 b.toNat) := by
    rw [hbits, crcResidue_append, crcResidue_replicate_false, add_zero, List.length_replicate]
  rw [crcDividend, ← hbits, crcResidue_append, crcResidue_map_not, List.length_drop,
    List.length_take, hlength, Nat.add_sub_cancel, Nat.min_eq_left (Nat.le_add_left _ _)]
  linear_combination hdata - hparts

/-- **CRC-32.** The running checksum is the remainder of the division. -/
theorem isCrc32_crc32 (data : List UInt8) : IsCrc32 data (crc32 data).toNat := by
  obtain ⟨c, hc⟩ : ∃ c, c = data.foldl crcOctet 0xffffffff := ⟨_, rfl⟩
  have hcomplement : (lowBits 32 (crc32 data).toNat).map not = lowBits 32 c.toNat := by
    have hones : ∀ i < 32, (UInt32.toNat 0xffffffff).testBit i = true := by decide
    rw [crc32, ← hc, UInt32.toNat_xor, lowBits, List.map_map, lowBits]
    apply List.map_congr_left
    intro i hi
    rw [Function.comp_apply, Nat.testBit_xor, hones i (List.mem_range.1 hi), Bool.xor_true,
      Bool.not_not]
  have hresidue : crcResidue (crcDividend data) = crcResidue (lowBits 32 c.toNat) := by
    have hones : lowBits 32 (UInt32.toNat 0xffffffff) = List.replicate 32 true := by decide
    rw [crcResidue_crcDividend, hc, crcResidue_foldl, hones]
  have hdegree : (bitPoly (lowBits 32 c.toNat)).degree < crcDivisor.degree := by
    rw [degree_crcDivisor]
    exact (degree_bitPoly_lt _).trans_eq (by simp)
  rw [IsCrc32, hcomplement, ← (modByMonic_eq_self_iff monic_crcDivisor).2 hdegree]
  exact modByMonic_eq_of_dvd_sub monic_crcDivisor (AdjoinRoot.mk_eq_mk.1 hresidue.symm)

/-! ### Adler-32 -/

/-- The sum of the octets and one. -/
def adlerLow (data : List UInt8) : Nat := 1 + (data.map UInt8.toNat).sum

/-- The sum of what the lower sum is behind each octet. -/
def adlerHigh (data : List UInt8) : Nat :=
  ((List.range data.length).map fun i => adlerLow (data.take (i + 1))).sum

theorem adlerLow_concat (data : List UInt8) (b : UInt8) :
    adlerLow (data ++ [b]) = adlerLow data + b.toNat := by
  simp [adlerLow, Nat.add_assoc]

theorem adlerHigh_concat (data : List UInt8) (b : UInt8) :
    adlerHigh (data ++ [b]) = adlerHigh data + adlerLow (data ++ [b]) := by
  have hbefore : (List.range data.length).map (fun i => adlerLow ((data ++ [b]).take (i + 1))) =
      (List.range data.length).map fun i => adlerLow (data.take (i + 1)) := by
    apply List.map_congr_left
    intro i hi
    rw [List.take_append_of_le_length (List.mem_range.1 hi)]
  have hall : (data ++ [b]).take (data.length + 1) = data ++ [b] :=
    List.take_of_length_le (by simp)
  rw [adlerHigh, List.length_append, List.length_singleton, List.range_succ, List.map_append,
    hbefore, List.sum_append, List.map_singleton, List.sum_singleton, hall, adlerHigh]

theorem toNat_foldl_adlerOctet (data : List UInt8) :
    (data.foldl adlerOctet (1, 0)).1.toNat = adlerLow data % 65521 ∧
      (data.foldl adlerOctet (1, 0)).2.toNat = adlerHigh data % 65521 := by
  induction data using List.reverseRecOn with
  | nil => decide
  | append_singleton data b ih =>
    obtain ⟨hlow, hhigh⟩ := ih
    obtain ⟨sums, hsums⟩ : ∃ sums, sums = data.foldl adlerOctet (1, 0) := ⟨_, rfl⟩
    rw [← hsums] at hlow hhigh
    have hb := b.toNat_lt
    have hmod : UInt32.toNat 65521 = 65521 := rfl
    have hlow' : (adlerOctet sums b).1.toNat = adlerLow (data ++ [b]) % 65521 := by
      rw [adlerOctet, UInt32.toNat_mod, UInt32.toNat_add, hlow, UInt8.toNat_toUInt32, hmod,
        adlerLow_concat]
      omega
    refine ⟨by rwa [List.foldl_concat, ← hsums], ?_⟩
    have hhigh' : (adlerOctet sums b).2 = (sums.2 + (adlerOctet sums b).1) % 65521 := rfl
    rw [List.foldl_concat, ← hsums, hhigh', UInt32.toNat_mod, UInt32.toNat_add, hhigh, hlow',
      hmod, adlerHigh_concat]
    omega

/-- **Adler-32.** The running checksum is made of both sums. -/
theorem toNat_adler32 (data : List UInt8) :
    (adler32 data).toNat = adlerHigh data % 65521 * 65536 + adlerLow data % 65521 := by
  obtain ⟨hlow, hhigh⟩ := toNat_foldl_adlerOctet data
  have hshift : UInt32.toNat 16 % 32 = 16 := rfl
  have hfits : (data.foldl adlerOctet (1, 0)).1.toNat < 2 ^ 16 := by omega
  have hwhole : (data.foldl adlerOctet (1, 0)).2.toNat <<< 16 % 2 ^ 32 =
      (data.foldl adlerOctet (1, 0)).2.toNat <<< 16 := by
    apply Nat.mod_eq_of_lt
    rw [Nat.shiftLeft_eq]
    omega
  rw [adler32, UInt32.toNat_or, UInt32.toNat_shiftLeft, hshift, hwhole,
    ← Nat.shiftLeft_add_eq_or_of_lt hfits, Nat.shiftLeft_eq, hhigh, hlow]

end Gelf
