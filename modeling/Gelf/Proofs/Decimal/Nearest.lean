import Gelf.Proofs.Decimal.Scaling

/-!
# Rounding to the nearest float

Rounding takes the nearest float, and the even one of two. A positive number has 53 binary digits
before the last place of its floats, and what is rounded there is read off in two ways: as a value,
and as a place among the bit patterns, which follow each other in the order of their values.
-/

namespace Gelf.Rounding

open Float.Model (Format UnpackedFloat totalExponent)
open Float.Model.UnpackedFloat

/-! ### Nearest whole numbers -/

/-- A whole number that no other one is nearer to. It is the even one where two are equally near. -/
structure IsNearest (w : ℚ) (r : Nat) : Prop where
  lower : r - 1 / 2 ≤ w
  upper : w ≤ r + 1 / 2
  even_of_tie : w = r - 1 / 2 ∨ w = r + 1 / 2 → r % 2 = 0

theorem IsNearest.le {w : ℚ} {r r' : Nat} (h : IsNearest w r) (h' : IsNearest w r') : r ≤ r' := by
  by_contra hlt
  have hstep : (r' : ℚ) + 1 ≤ r := by exact_mod_cast Nat.lt_of_not_le hlt
  have hlower := h.lower
  have hupper := h'.upper
  have heven := h.even_of_tie (.inl (by linarith))
  have heven' := h'.even_of_tie (.inr (by linarith))
  have hone : (r : ℚ) = r' + 1 := by linarith
  have hnat : r = r' + 1 := by exact_mod_cast hone
  omega

theorem IsNearest.unique {w : ℚ} {r r' : Nat} (h : IsNearest w r) (h' : IsNearest w r') : r = r' :=
  Nat.le_antisymm (h.le h') (h'.le h)

theorem isNearest_self (r : Nat) : IsNearest r r :=
  ⟨by linarith, by linarith, by rintro (h | h) <;> linarith⟩

/-- Where a number lies between a mantissa and the next one. -/
def Locates (m : Nat) (w : ℚ) : Accuracy → Prop
  | .exact => w = m
  | .inexact .lt => m < w ∧ w < m + 1 / 2
  | .inexact .eq => w = m + 1 / 2
  | .inexact .gt => m + 1 / 2 < w ∧ w < m + 1

variable {m : Nat} {e : Int} {w : ℚ} {accuracy : Accuracy}

theorem Locates.le (h : Locates m w accuracy) : m ≤ w := by
  rcases accuracy with _ | (_ | _ | _) <;> simp only [Locates] at h <;> linarith

theorem Locates.lt (h : Locates m w accuracy) : w < m + 1 := by
  rcases accuracy with _ | (_ | _ | _) <;> simp only [Locates] at h <;> linarith

theorem Locates.isNearest (h : Locates m w accuracy) :
    IsNearest w (accuracy.roundToNearestEven m) := by
  rcases accuracy with _ | (_ | _ | _) <;>
    simp only [Locates, Accuracy.roundToNearestEven] at h ⊢
  · exact ⟨by grind, by grind, by grind⟩
  · exact ⟨by grind, by grind, by grind⟩
  · rcases Nat.mod_two_eq_zero_or_one m with hbit | hbit <;> rw [hbit] <;>
      exact ⟨by grind, by grind, fun _ => by omega⟩
  · exact ⟨by grind, by grind, by grind⟩

/-- Half a number lies at half the mantissa, and the bit that falls out tells on which side. -/
theorem locates_shiftRightOne {em : ExtendedMantissa} (h : Locates em.mantissa w em.accuracy) :
    Locates em.shiftRightOne.mantissa (w / 2) em.shiftRightOne.accuracy := by
  obtain ⟨m, roundBit, stickyBit⟩ := em
  have hm : ((m / 2 : Nat) : ℚ) * 2 + (m % 2 : Nat) = m := by exact_mod_cast Nat.div_add_mod' m 2
  rcases Nat.mod_two_eq_zero_or_one m with hbit | hbit <;> cases roundBit <;> cases stickyBit <;>
    simp [ExtendedMantissa.shiftRightOne, ExtendedMantissa.accuracy, Locates, hbit] at h hm ⊢ <;>
    grind

theorem isNearest_shiftRight (h : Locates m w accuracy) (k : Nat) :
    IsNearest (w / 2 ^ k)
      (ExtendedMantissa.ofMantissaAndAccuracy m accuracy >>> k).roundedMantissa := by
  refine Locates.isNearest ?_
  induction k with
  | zero =>
    rw [pow_zero, div_one]
    rcases accuracy with _ | (_ | _ | _) <;> exact h
  | succ k ih =>
    rw [pow_succ, ← div_div]
    exact locates_shiftRightOne ih

/-! ### Bit patterns -/

/-- A positive float with all bits of its mantissa. -/
def IsNormal (x : Float) (m : Nat) (q : Int) : Prop :=
  m.log2 = 52 ∧ ∃ hpos, x.toModel.unpack = .finite .positive m q hpos

theorem toNat_unpackMantissa (b : BitVec Format.binary64.numBits) :
    (unpackMantissa b).toNat = b.toNat % 2 ^ 52 := by
  simp [unpackMantissa]

theorem toNat_unpackSign (b : BitVec Format.binary64.numBits) :
    (unpackSign b).toNat = b.toNat / 2 ^ 63 := by
  have hlt : b.toNat < 2 ^ 64 := b.isLt
  simp only [unpackSign, BitVec.toNat_cast, BitVec.extractLsb_toNat, Nat.shiftRight_eq_div_pow]
  norm_num
  omega

theorem toNat_lt_of_positive {b : BitVec Format.binary64.numBits}
    (h : Sign.ofBitVec (unpackSign b) = .positive) : b.toNat < 2 ^ 63 := by
  have hsign : unpackSign b = 0#1 := by
    by_contra hne
    rw [Sign.ofBitVec, if_neg hne] at h
    cases h
  have hzero := toNat_unpackSign b
  rw [hsign, BitVec.toNat_ofNat, Nat.zero_mod] at hzero
  omega

/-- What a float is unpacked to, in terms of its bits. Behind the sign they count through the
mantissas of one exponent, and then through those of the next. -/
def DescribesBits (bits : Nat) : UnpackedFloat → Prop
  | .zero _ => bits % 2 ^ 63 = 0
  | .finite s m q _ =>
    ((bits % 2 ^ 63 : Nat) : Int) = (q + 1074) * 2 ^ 52 + m ∧ -1074 ≤ q ∧
      (2 ^ 52 ≤ m ∨ q = -1074) ∧ (s = .positive → bits < 2 ^ 63)
  | _ => True

theorem describesBits_unpack (x : Float) : DescribesBits x.toBits.toNat x.toModel.unpack := by
  obtain ⟨b, hb⟩ : ∃ b : BitVec Format.binary64.numBits, b = x.toBits.toBitVec := ⟨_, rfl⟩
  have hmantissa := toNat_unpackMantissa b
  have hexponent := toNat_unpackExponent b
  have hbias : (Format.binary64.exponentBias : Int) = 1023 := rfl
  suffices h : DescribesBits b.toNat (UnpackedFloat.unpack Format.binary64 b) by
    rw [hb] at h
    exact h
  unfold UnpackedFloat.unpack
  dsimp only
  split
  · split <;> trivial
  · split
    · rename_i hzero
      rw [hzero, BitVec.toNat_ofNat, Nat.zero_mod] at hexponent
      split
      · rename_i hnone
        rw [hnone, BitVec.toNat_ofNat, Nat.zero_mod] at hmantissa
        show b.toNat % 2 ^ 63 = 0
        omega
      · rw [hzero, BitVec.toNat_ofNat, Nat.zero_mod, hbias]
        refine ⟨?_, ?_, ?_, toNat_lt_of_positive⟩ <;> omega
    · rename_i hnonzero
      have hlead : (1#1 ++ unpackMantissa b).toNat = 2 ^ 52 + b.toNat % 2 ^ 52 := by
        rw [BitVec.toNat_append, hmantissa,
          ← Nat.shiftLeft_add_eq_or_of_lt (Nat.mod_lt _ (by decide))]
        rfl
      have hpositive : (unpackExponent b).toNat ≠ 0 := by
        intro hzero
        exact hnonzero (BitVec.eq_of_toNat_eq hzero)
      rw [hbias]
      refine ⟨?_, ?_, ?_, toNat_lt_of_positive⟩ <;> omega

theorem toNat_toBits {x : Float} {m : Nat} {q : Int} {hpos : 0 < m}
    (h : x.toModel.unpack = .finite .positive m q hpos) :
    (x.toBits.toNat : Int) = (q + 1074) * 2 ^ 52 + m ∧ -1074 ≤ q ∧ (2 ^ 52 ≤ m ∨ q = -1074) := by
  have hbits := describesBits_unpack x
  rw [h] at hbits
  obtain ⟨heq, hlow, hcases, hsign⟩ := hbits
  rw [Nat.mod_eq_of_lt (hsign rfl)] at heq
  exact ⟨heq, hlow, hcases⟩

theorem toNat_toBits_of_zero {x : Float} {s : Sign} (h : x.toModel.unpack = .zero s) :
    x.toBits.toNat = 0 ∨ x.toBits.toNat = 2 ^ 63 := by
  have hbits := describesBits_unpack x
  rw [h] at hbits
  have hzero : x.toBits.toNat % 2 ^ 63 = 0 := hbits
  have hlt := x.toBits.toNat_lt
  omega

theorem eq_of_toBits_eq {x y : Float} (h : x.toBits = y.toBits) : x = y := by
  obtain ⟨⟨b, hb⟩⟩ := x
  obtain ⟨⟨c, hc⟩⟩ := y
  cases h
  rfl

theorem isNormal_of_unpack {x : Float} {m : Nat} {q : Int} {hpos : 0 < m}
    (hx : x.toModel.unpack = .finite .positive m q hpos) (hq : -1074 < q) : IsNormal x m q := by
  obtain ⟨-, -, hcases⟩ := toNat_toBits hx
  have hm := (unpack_finite_bounds hx).1
  exact ⟨(Nat.log2_eq_iff hpos.ne').2 ⟨by omega, hm⟩, hpos, hx⟩

namespace IsNormal

variable {x y : Float} {m m' : Nat} {q q' : Int}

theorem bounds (h : IsNormal x m q) : 2 ^ 52 ≤ m ∧ m < 2 ^ 53 := by
  obtain ⟨hm, hpos, -⟩ := h
  exact (Nat.log2_eq_iff hpos.ne').1 hm

theorem toNat_toBits (h : IsNormal x m q) : (x.toBits.toNat : Int) = (q + 1074) * 2 ^ 52 + m := by
  obtain ⟨-, hpos, hunpack⟩ := h
  exact (Rounding.toNat_toBits hunpack).1

end IsNormal

/-- A positive number with 53 binary digits before the last place `q`, and the float that it is
rounded to there. Rounding may carry into the next exponent. -/
structure RoundsTo (v : ℚ) (x : Float) (q : Int) (r : Nat) : Prop where
  low : 2 ^ 52 ≤ v / 2 ^ q
  high : v / 2 ^ q < 2 ^ 53
  nearest : IsNearest (v / 2 ^ q) r
  exists_normal : ∃ m q', IsNormal x m q' ∧ q ≤ q' ∧ q' ≤ q + 1 ∧
    (m : ℚ) * 2 ^ q' = r * 2 ^ q ∧ q' * 2 ^ 52 + m = q * 2 ^ 52 + r

theorem RoundsTo.toNat_toBits {v : ℚ} {x : Float} {q : Int} {r : Nat} (h : RoundsTo v x q r) :
    (x.toBits.toNat : Int) = (q + 1074) * 2 ^ 52 + r := by
  obtain ⟨m, q', hnormal, -, -, -, hplace⟩ := h.exists_normal
  have hbits := hnormal.toNat_toBits
  omega

theorem isNormal_pack {m : Nat} {q : Int} (hpos : 0 < m) (hm : m.log2 = 52) (hlow : -1074 ≤ q)
    (hhigh : q ≤ 971) : IsNormal (.ofModel (.pack (.finite .positive m q hpos))) m q :=
  ⟨hm, hpos, unpack_pack_of_log2_eq hpos hm hlow hhigh⟩

/-- What is rounded to 53 bits may take one more, and is then a power of two. It keeps its value and
its place when it is cut. -/
theorem cut_excess {r : Nat} {q : Int} (hr : 2 ^ 52 ≤ r) (hr' : r ≤ 2 ^ 53) (hlow : -1074 ≤ q) :
    (r / 2 ^ excess r q).log2 = 52 ∧ excess r q ≤ 1 ∧
      ((r / 2 ^ excess r q : Nat) : ℚ) * 2 ^ (q + excess r q) = r * 2 ^ q ∧
      (q + excess r q) * 2 ^ 52 + (r / 2 ^ excess r q : Nat) = q * 2 ^ 52 + r := by
  rcases Nat.lt_or_eq_of_le hr' with hlt | rfl
  · have hlog : r.log2 = 52 := (Nat.log2_eq_iff (by omega)).2 ⟨hr, hlt⟩
    have hk : excess r q = 0 := by unfold excess; omega
    rw [hk, pow_zero, Nat.div_one, Int.natCast_zero, Int.add_zero]
    exact ⟨hlog, Nat.zero_le 1, rfl, rfl⟩
  · have hk : excess (2 ^ 53) q = 1 := by
      unfold excess
      rw [Nat.log2_two_pow]
      omega
    rw [hk]
    refine ⟨by decide, Nat.le_refl 1, ?_, by omega⟩
    rw [zpow_add₀ (by norm_num)]
    norm_num
    ring

/-- A mantissa with all its bits is rounded to the nearest. -/
theorem exists_roundsTo (h : Locates m w accuracy) (hm : 52 ≤ m.log2)
    (hlow : -1074 ≤ (m.log2 : Int) - 52 + e) (hhigh : (m.log2 : Int) - 52 + e ≤ 970) :
    ∃ r, RoundsTo (w * 2 ^ e)
      (.ofModel (.pack (roundWithAccuracy Format.binary64 .positive m e accuracy)))
      (m.log2 - 52 + e) r := by
  obtain ⟨r, hr, hrlow, hrhigh, heq⟩ := roundWithAccuracy_eq .positive m e accuracy
  have hcut : excess m e = m.log2 - 52 := by unfold excess; omega
  rw [hcut] at hr hrlow hrhigh heq
  have hplace : ((m.log2 : Int) - 52 + e) = e + (m.log2 - 52 : Nat) := by omega
  have hscaled : w * 2 ^ e / 2 ^ (e + (m.log2 - 52 : Nat)) = w / 2 ^ (m.log2 - 52) := by
    rw [zpow_add₀ (by norm_num), zpow_natCast]
    field_simp
  have hmlow : 2 ^ 52 * 2 ^ (m.log2 - 52) ≤ m := (Nat.le_div_iff_mul_le (Nat.two_pow_pos _)).1
    (le_div_two_pow hm)
  have hdivhigh : m / 2 ^ (m.log2 - 52) < 2 ^ 53 := div_two_pow_lt (by omega)
  have hmhigh : m < 2 ^ 53 * 2 ^ (m.log2 - 52) :=
    (Nat.div_lt_iff_lt_mul (Nat.two_pow_pos _)).1 hdivhigh
  have hrlow' := (le_div_two_pow hm).trans hrlow
  rw [hplace] at hlow hhigh ⊢
  obtain ⟨hlog, hone, hvalue, hpattern⟩ := cut_excess hrlow' (by omega) hlow
  have hpos : r / 2 ^ excess r (e + (m.log2 - 52 : Nat)) ≠ 0 := by
    intro hzero
    rw [hzero] at hlog
    cases hlog
  refine ⟨r, ?_, ?_, ?_, ?_⟩
  · rw [hscaled, le_div_iff₀ (by positivity)]
    exact le_trans (by exact_mod_cast hmlow) h.le
  · rw [hscaled, div_lt_iff₀ (by positivity)]
    exact h.lt.trans_le (by exact_mod_cast hmhigh)
  · rw [hscaled, hr]
    exact isNearest_shiftRight h _
  · dsimp only at heq
    rw [heq, dif_neg hpos]
    exact ⟨_, _, isNormal_pack _ hlog (by omega) (by omega), by omega, by omega, hvalue, hpattern⟩

/-! ### Neighbours -/

variable {x y : Float} {q p : Int} {r : Nat} {v d : ℚ}

/-- What a number rounds to, seen from a last place that is at most one off. -/
theorem RoundsTo.seen_from (h : RoundsTo v y p r) (hlow : 2 ^ 51 ≤ v / 2 ^ q)
    (hhigh : v / 2 ^ q < 2 ^ 54) :
    v / 2 ^ q < 2 ^ 52 ∧ IsNearest (v / 2 ^ q * 2) r ∧
        (y.toBits.toNat : Int) = (q + 1074) * 2 ^ 52 + r - 2 ^ 52 ∨
      IsNearest (v / 2 ^ q) r ∧ (y.toBits.toNat : Int) = (q + 1074) * 2 ^ 52 + r ∨
      2 ^ 53 ≤ v / 2 ^ q ∧ IsNearest (v / 2 ^ q / 2) r ∧
        (y.toBits.toNat : Int) = (q + 1074) * 2 ^ 52 + r + 2 ^ 52 := by
  have hbits := h.toNat_toBits
  have hplace : v / 2 ^ p = v / 2 ^ q * 2 ^ (q - p) := by
    rw [zpow_sub₀ (by norm_num)]
    field_simp
  obtain ⟨low, high, nearest, -⟩ := h
  rw [hplace] at low high nearest
  have hpow : (0 : ℚ) < 2 ^ (q - p) := zpow_pos (by norm_num) _
  have habove : (2 : ℚ) ^ (-2 : Int) < 2 ^ (q - p) := by
    have hlt : v / 2 ^ q * 2 ^ (q - p) < 2 ^ 54 * 2 ^ (q - p) := mul_lt_mul_of_pos_right hhigh hpow
    norm_num at hlt low ⊢
    linarith
  have hbelow : (2 : ℚ) ^ (q - p) < 2 ^ (2 : Int) := by
    have hle : 2 ^ 51 * 2 ^ (q - p) ≤ v / 2 ^ q * 2 ^ (q - p) :=
      mul_le_mul_of_nonneg_right hlow hpow.le
    norm_num at hle high ⊢
    linarith
  have habove' := (zpow_lt_zpow_iff_right₀ (by norm_num : (1 : ℚ) < 2)).1 habove
  have hbelow' := (zpow_lt_zpow_iff_right₀ (by norm_num : (1 : ℚ) < 2)).1 hbelow
  obtain hstep | hstep | hstep : q - p = 1 ∨ q - p = 0 ∨ q - p = -1 := by omega
  · rw [hstep, zpow_one] at high nearest
    exact .inl ⟨by linarith, nearest, by omega⟩
  · rw [hstep, zpow_zero, mul_one] at nearest
    exact .inr (.inl ⟨nearest, by omega⟩)
  · rw [hstep, zpow_neg_one, ← div_eq_mul_inv] at low nearest
    exact .inr (.inr ⟨by linarith, nearest, by omega⟩)

/-- A number that a float is the nearest one to is rounded to that float. -/
theorem toBits_eq_of_isNearest (hx : IsNormal x m q) (hy : RoundsTo v y p r)
    (hnearest : IsNearest (v / 2 ^ q) m) (hedge : m = 2 ^ 52 → 2 ^ 52 - 1 / 4 ≤ v / 2 ^ q) :
    y.toBits = x.toBits := by
  have hbits := hx.toNat_toBits
  obtain ⟨hm, hm'⟩ := hx.bounds
  have hmlow : (2 ^ 52 : ℚ) ≤ m := by exact_mod_cast hm
  have hmhigh : (m : ℚ) + 1 ≤ 2 ^ 53 := by exact_mod_cast hm'
  have hlower := hnearest.lower
  have hupper := hnearest.upper
  apply UInt64.toNat_inj.1
  rcases hy.seen_from (q := q) (by linarith) (by linarith) with
    ⟨hbelow, hr, hbits'⟩ | ⟨hr, hbits'⟩ | ⟨habove, -, -⟩
  · -- only the first mantissa of an exponent has numbers below it that belong to it
    have hfirst : m = 2 ^ 52 := by
      have hlt : (m : ℚ) < 2 ^ 52 + 1 := by linarith
      have hlt' : m < 2 ^ 52 + 1 := by exact_mod_cast hlt
      omega
    have hlast : IsNearest (v / 2 ^ q * 2) (2 ^ 53) := by
      have hedge' := hedge hfirst
      push_cast
      exact ⟨by push_cast; linarith, by push_cast; linarith, fun _ => rfl⟩
    have hcarry := hr.unique hlast
    omega
  · have hsame := hr.unique hnearest
    omega
  · linarith

/-- A number that is a little off is rounded to the float or to a neighbour of it. -/
theorem toBits_near_of_isNearest (hx : IsNormal x m q) (hy : RoundsTo v y p r)
    (hnearest : IsNearest (d / 2 ^ q) m) (hedge : m = 2 ^ 52 → 2 ^ 52 - 1 / 4 ≤ d / 2 ^ q)
    (hoff : |v - d| ≤ d / 2 ^ 53) :
    y.toBits.toNat ≤ x.toBits.toNat + 1 ∧ x.toBits.toNat ≤ y.toBits.toNat + 1 := by
  have hbits := hx.toNat_toBits
  obtain ⟨hm, hm'⟩ := hx.bounds
  have hmlow : (2 ^ 52 : ℚ) ≤ m := by exact_mod_cast hm
  have hmhigh : (m : ℚ) + 1 ≤ 2 ^ 53 := by exact_mod_cast hm'
  have hlower := hnearest.lower
  have hupper := hnearest.upper
  have hscaled : |v / 2 ^ q - d / 2 ^ q| ≤ d / 2 ^ q / 2 ^ 53 := by
    rw [← sub_div, abs_div, abs_of_pos (zpow_pos (by norm_num) q : (0 : ℚ) < 2 ^ q), div_right_comm]
    exact div_le_div_of_nonneg_right hoff (zpow_pos (by norm_num) q).le
  obtain ⟨hvlow, hvhigh⟩ := abs_le.1 hscaled
  rcases hy.seen_from (q := q) (by linarith) (by linarith) with
    ⟨hbelow, hr, hbits'⟩ | ⟨hr, hbits'⟩ | ⟨habove, hr, hbits'⟩
  · have hrlow := hr.upper
    have hrhigh : (r : ℚ) < 2 ^ 53 + 1 := by linarith [hr.lower]
    have hrhigh' : r < 2 ^ 53 + 1 := by exact_mod_cast hrhigh
    have hfirst : (m : ℚ) < 2 ^ 52 + 2 := by linarith
    have hfirst' : m < 2 ^ 52 + 2 := by exact_mod_cast hfirst
    suffices hclose : 2 ^ 52 + m ≤ r + 1 by omega
    obtain hone | hone : m = 2 ^ 52 ∨ m = 2 ^ 52 + 1 := by omega
    · have hedge' := hedge hone
      have hlast : (2 ^ 53 : ℚ) < r + 2 := by
        norm_num at hvlow hedge' ⊢
        linarith
      have hlast' : 2 ^ 53 < r + 2 := by exact_mod_cast hlast
      omega
    · have hone' : (m : ℚ) = 2 ^ 52 + 1 := by exact_mod_cast hone
      have hlast : (2 ^ 53 : ℚ) < r + 1 := by
        rw [hone'] at hlower
        norm_num at hvlow hlower ⊢
        linarith
      have hlast' : 2 ^ 53 < r + 1 := by exact_mod_cast hlast
      omega
  · have hrlow : (m : ℚ) < r + 2 := by linarith [hr.upper]
    have hrlow' : m < r + 2 := by exact_mod_cast hrlow
    have hrhigh : (r : ℚ) < m + 2 := by linarith [hr.lower]
    have hrhigh' : r < m + 2 := by exact_mod_cast hrhigh
    omega
  · have hlast : (2 ^ 53 : ℚ) < m + 2 := by linarith
    have hlast' : 2 ^ 53 < m + 2 := by exact_mod_cast hlast
    have hrlow : (2 ^ 52 : ℚ) < r + 1 := by linarith [hr.upper]
    have hrlow' : 2 ^ 52 < r + 1 := by exact_mod_cast hrlow
    have hrhigh : (r : ℚ) < 2 ^ 52 + 1 := by linarith [hr.lower]
    have hrhigh' : r < 2 ^ 52 + 1 := by exact_mod_cast hrhigh
    omega

end Gelf.Rounding
