import Mathlib

/-!
# Rounding of floats

How far rounding can move a float upwards, and when the result is finite. The bounds are in whole
steps of the last place, so they do not depend on how ties are settled.
-/

namespace Gelf.Rounding

open Float.Model (Format UnpackedFloat totalExponent)
open Float.Model.UnpackedFloat

/-! ### Shifting a mantissa -/

theorem mantissa_shiftRight (em : ExtendedMantissa) (k : Nat) :
    (em >>> k).mantissa = em.mantissa / 2 ^ k := by
  induction k with
  | zero => exact (Nat.div_one _).symm
  | succ k ih =>
    calc (em >>> (k + 1)).mantissa = (em >>> k).mantissa / 2 := rfl
      _ = em.mantissa / 2 ^ (k + 1) := by rw [ih, Nat.div_div_eq_div_mul, Nat.pow_succ]

theorem mantissa_ofMantissaAndAccuracy (m : Nat) (accuracy : Accuracy) :
    (ExtendedMantissa.ofMantissaAndAccuracy m accuracy).mantissa = m := by
  rcases accuracy with _ | (_ | _ | _) <;> rfl

theorem roundedMantissa_mem (em : ExtendedMantissa) :
    em.mantissa ≤ em.roundedMantissa ∧ em.roundedMantissa ≤ em.mantissa + 1 := by
  unfold ExtendedMantissa.roundedMantissa Accuracy.roundToNearestEven
  cases em.accuracy with
  | exact => exact ⟨Nat.le_refl _, Nat.le_succ _⟩
  | inexact order => cases order <;> dsimp only <;> omega

/-- How many bits of a mantissa do not fit in a float. -/
def excess (m : Nat) (e : Int) : Nat := (max ((m.log2 : Int) - 52 + e) (-1074) - e).toNat

theorem toNat_targetExponent_sub (m : Nat) (e : Int) :
    (Format.binary64.targetExponent (totalExponent m e) - e).toNat = excess m e := by
  have hbits : (Format.binary64.mantissaBits : Int) = 53 := rfl
  have hleast : Format.binary64.minExponent = -1074 := rfl
  simp only [Format.targetExponent, totalExponent, excess, hbits, hleast]
  omega

theorem mantissa_shiftToTargetExponent (m : Nat) (e : Int) (accuracy : Accuracy) :
    (shiftToTargetExponent Format.binary64 m e accuracy).1.mantissa = m / 2 ^ excess m e := by
  simp only [shiftToTargetExponent, shiftToExponent, mantissa_shiftRight,
    mantissa_ofMantissaAndAccuracy, toNat_targetExponent_sub]

theorem exponent_shiftToTargetExponent (m : Nat) (e : Int) (accuracy : Accuracy) :
    (shiftToTargetExponent Format.binary64 m e accuracy).2 = e + excess m e := by
  simp only [shiftToTargetExponent, shiftToExponent, toNat_targetExponent_sub]

/-- Rounding cuts a mantissa, adds at most one, and cuts once more what got too long. -/
theorem roundWithAccuracy_eq (s : Sign) (m : Nat) (e : Int) (accuracy : Accuracy) :
    ∃ r, r = (ExtendedMantissa.ofMantissaAndAccuracy m accuracy >>> excess m e).roundedMantissa ∧
      m / 2 ^ excess m e ≤ r ∧ r ≤ m / 2 ^ excess m e + 1 ∧
      let k := excess r (e + excess m e)
      roundWithAccuracy Format.binary64 s m e accuracy =
        if h : r / 2 ^ k = 0 then .zero s
        else .finite s (r / 2 ^ k) (e + excess m e + k) (Nat.pos_of_ne_zero h) := by
  have hrounded := roundedMantissa_mem (shiftToTargetExponent Format.binary64 m e accuracy).1
  rw [mantissa_shiftToTargetExponent] at hrounded
  refine ⟨_, ?_, hrounded.1, hrounded.2, ?_⟩
  · simp only [shiftToTargetExponent, shiftToExponent, toNat_targetExponent_sub]
  · simp only [roundWithAccuracy, mantissa_shiftToTargetExponent, exponent_shiftToTargetExponent]

/-! ### Bounds -/

theorem div_two_pow_lt {m k : Nat} (h : m.log2 ≤ 52 + k) : m / 2 ^ k < 2 ^ 53 := by
  apply (Nat.div_lt_iff_lt_mul (Nat.two_pow_pos k)).2
  calc m < 2 ^ (m.log2 + 1) := Nat.lt_log2_self
    _ ≤ 2 ^ (53 + k) := Nat.pow_le_pow_right (by decide) (by omega)
    _ = 2 ^ 53 * 2 ^ k := Nat.pow_add 2 53 k

theorem le_div_two_pow {m : Nat} (h : 52 ≤ m.log2) : 2 ^ 52 ≤ m / 2 ^ (m.log2 - 52) := by
  have hm : m ≠ 0 := by
    rintro rfl
    simp at h
  apply (Nat.le_div_iff_mul_le (Nat.two_pow_pos _)).2
  calc 2 ^ 52 * 2 ^ (m.log2 - 52) = 2 ^ m.log2 := by rw [← Nat.pow_add]; congr 1; omega
    _ ≤ m := Nat.log2_self_le hm

theorem log2_le_of_le {m k : Nat} (h : m ≤ 2 ^ k) : m.log2 ≤ k := by
  by_cases hm : m = 0
  · simp [hm]
  · have hlt : 2 ^ m.log2 < 2 ^ (k + 1) := calc
      2 ^ m.log2 ≤ m := Nat.log2_self_le hm
      _ ≤ 2 ^ k := h
      _ < 2 ^ (k + 1) := Nat.pow_lt_pow_right (by decide) (Nat.lt_succ_self k)
    exact Nat.lt_succ_iff.1 ((Nat.pow_lt_pow_iff_right (by decide)).1 hlt)

theorem exponent_roundWithAccuracy_le (s : Sign) (m : Nat) (e : Int) (accuracy : Accuracy) :
    roundWithAccuracy Format.binary64 s m e accuracy = .zero s ∨
      ∃ m' e' h, roundWithAccuracy Format.binary64 s m e accuracy = .finite s m' e' h ∧
        e' ≤ max (max e ((m.log2 : Int) - 52 + e)) (-1074) + 1 := by
  obtain ⟨r, -, -, hr, heq⟩ := roundWithAccuracy_eq s m e accuracy
  dsimp only at heq
  by_cases hzero : r / 2 ^ excess r (e + excess m e) = 0
  · rw [dif_pos hzero] at heq
    exact .inl heq
  · rw [dif_neg hzero] at heq
    refine .inr ⟨_, _, _, heq, ?_⟩
    have hcut : m / 2 ^ excess m e < 2 ^ 53 := div_two_pow_lt (by unfold excess; omega)
    have hlog : r.log2 ≤ 53 := log2_le_of_le (by omega)
    unfold excess
    omega

/-- A mantissa with all its bits is rounded to one with 53 bits, and grows by at most one in the
last place. -/
theorem exists_roundWithAccuracy_eq (s : Sign) {m : Nat} {e : Int} (accuracy : Accuracy)
    (hm : 52 ≤ m.log2) (he : -1074 ≤ (m.log2 : Int) - 52 + e) :
    ∃ m' e' h, roundWithAccuracy Format.binary64 s m e accuracy = .finite s m' e' h ∧
      m'.log2 = 52 ∧ (m.log2 : Int) - 52 + e ≤ e' ∧
      (m' : ℚ) * 2 ^ e' ≤ m * 2 ^ e * (1 + 1 / 2 ^ 52) := by
  obtain ⟨r, -, hrlow, hrhigh, heq⟩ := roundWithAccuracy_eq s m e accuracy
  have hcut : excess m e = m.log2 - 52 := by unfold excess; omega
  rw [hcut] at hrlow hrhigh heq
  have hlow : 2 ^ 52 ≤ r := (le_div_two_pow hm).trans hrlow
  have hrlog : 52 ≤ r.log2 := (Nat.le_log2 (by omega)).2 hlow
  have hcut' : excess r (e + (m.log2 - 52 : Nat)) = r.log2 - 52 := by unfold excess; omega
  simp only [hcut'] at heq
  have hlow' := le_div_two_pow hrlog
  have hhigh' : r / 2 ^ (r.log2 - 52) < 2 ^ 53 := div_two_pow_lt (by omega)
  have hpos : r / 2 ^ (r.log2 - 52) ≠ 0 := by omega
  rw [dif_neg hpos] at heq
  refine ⟨_, _, _, heq, (Nat.log2_eq_iff hpos).2 ⟨hlow', hhigh'⟩, by omega, ?_⟩
  -- Both cuts only make the value smaller, so what is gained is the one that was added.
  have hcuts : r / 2 ^ (r.log2 - 52) * 2 ^ (r.log2 - 52) * 2 ^ (m.log2 - 52) * 2 ^ 52 ≤
      m * (2 ^ 52 + 1) := calc
    _ ≤ r * 2 ^ (m.log2 - 52) * 2 ^ 52 := by gcongr; exact Nat.div_mul_le_self _ _
    _ ≤ (m / 2 ^ (m.log2 - 52) + 1) * 2 ^ (m.log2 - 52) * 2 ^ 52 := by gcongr
    _ = m / 2 ^ (m.log2 - 52) * 2 ^ (m.log2 - 52) * 2 ^ 52 + 2 ^ (m.log2 - 52) * 2 ^ 52 := by ring
    _ ≤ m * 2 ^ 52 + m := by
      have hwhole : 2 ^ (m.log2 - 52) * 2 ^ 52 ≤ m := by
        rw [← Nat.pow_add, Nat.sub_add_cancel hm]
        exact Nat.log2_self_le (by rintro rfl; simp at hm)
      gcongr
      exact Nat.div_mul_le_self _ _
    _ = m * (2 ^ 52 + 1) := by ring
  have hcuts' : (((r / 2 ^ (r.log2 - 52) : Nat) : ℚ) * 2 ^ (r.log2 - 52)) * 2 ^ (m.log2 - 52) *
      2 ^ 52 ≤ m * (2 ^ 52 + 1) := by exact_mod_cast hcuts
  have hpow : (0 : ℚ) < 2 ^ e := zpow_pos (by norm_num) e
  rw [zpow_add₀ (by norm_num), zpow_add₀ (by norm_num), zpow_natCast, zpow_natCast]
  have hscaled := mul_le_mul_of_nonneg_right hcuts' hpow.le
  linarith

/-! ### Packing -/

theorem isFinite_unpack_iff (b : BitVec Format.binary64.numBits) :
    (UnpackedFloat.unpack Format.binary64 b).isFinite = true ↔ unpackExponent b ≠ -1#_ := by
  unfold UnpackedFloat.unpack
  by_cases h : unpackExponent b = -1#_
  · simp only [h, ↓reduceIte, ne_eq, not_true_eq_false, iff_false]
    split <;> exact Bool.false_ne_true
  · simp only [h, ↓reduceIte, ne_eq, not_false_eq_true, iff_true]
    split
    · split <;> rfl
    · rfl

theorem toNat_ofNat_exponent {e : Int} (hlow : -1074 ≤ e) (hhigh : e ≤ 971) :
    (BitVec.ofNat 11 (e + 1075).toNat).toNat = (e + 1075).toNat := by
  rw [BitVec.toNat_ofNat, Nat.mod_eq_of_lt (by omega)]

theorem pack_finite {s : Sign} {m : Nat} {e : Int} (hpos : 0 < m) (he : e ≤ 971) :
    UnpackedFloat.pack Format.binary64 (.finite s m e hpos) =
      packComponents Format.binary64 s
        (if m.log2 = 52 then BitVec.ofNat 11 (e + 1075).toNat else 0#11) (BitVec.ofNat 52 m) := by
  have hbias : (Format.binary64.exponentBias : Int) = 1023 := rfl
  have hbiased : (e + Format.binary64.exponentBias + (52 : Nat)).toNat = (e + 1075).toNat := by
    rw [hbias]
    congr 1
    omega
  have hnormal : m.log2 + 1 = Format.binary64.mantissaBits ↔ m.log2 = 52 := by
    have hbits : Format.binary64.mantissaBits = 53 := rfl
    rw [hbits]
    omega
  simp only [UnpackedFloat.pack, hbiased, hnormal]
  rw [if_neg (by omega)]
  by_cases h : m.log2 = 52
  · rw [if_pos h, if_pos h]
  · rw [if_neg h, if_neg h]

theorem unpack_pack_of_log2_eq {s : Sign} {m : Nat} {e : Int} (hpos : 0 < m) (hm : m.log2 = 52)
    (hlow : -1074 ≤ e) (hhigh : e ≤ 971) :
    (Float.Model.pack (.finite s m e hpos)).unpack = .finite s m e hpos := by
  have hbounds := (Nat.log2_eq_iff hpos.ne').1 hm
  have hexponent := toNat_ofNat_exponent hlow hhigh
  have hnotmax : BitVec.ofNat 11 (e + 1075).toNat ≠ -1#11 := by
    intro h
    have := congrArg BitVec.toNat h
    rw [hexponent] at this
    norm_num at this
    omega
  have hnotzero : BitVec.ofNat 11 (e + 1075).toNat ≠ 0#11 := by
    intro h
    have := congrArg BitVec.toNat h
    rw [hexponent] at this
    norm_num at this
    omega
  have hmantissa : (1#1 ++ BitVec.ofNat 52 m).toNat = m := by
    rw [BitVec.toNat_append, BitVec.toNat_ofNat, BitVec.toNat_ofNat,
      ← Nat.shiftLeft_add_eq_or_of_lt (Nat.mod_lt _ (by decide))]
    omega
  have hbias : (Format.binary64.exponentBias : Int) = 1023 := rfl
  show UnpackedFloat.unpack Format.binary64 (UnpackedFloat.pack Format.binary64 _) = _
  rw [pack_finite hpos hhigh, if_pos hm]
  simp only [UnpackedFloat.unpack, unpackExponent_packComponents, unpackMantissa_packComponents,
    unpackSign_packComponents, Sign.ofBitVec_toBitVec, hnotmax, hnotzero, ↓reduceIte, hexponent,
    hmantissa, hbias]
  congr 1
  omega

theorem isFinite_pack_zero (s : Sign) : (Float.Model.pack (.zero s)).isFinite = true := by
  cases s <;> rfl

theorem isFinite_pack_finite (s : Sign) {m : Nat} {e : Int} (hpos : 0 < m) (he : e ≤ 971) :
    (Float.Model.pack (.finite s m e hpos)).isFinite = true := by
  apply (isFinite_unpack_iff _).2
  show unpackExponent (UnpackedFloat.pack Format.binary64 _) ≠ _
  rw [pack_finite hpos he, unpackExponent_packComponents]
  split
  · intro h
    have := congrArg BitVec.toNat h
    rw [BitVec.toNat_ofNat] at this
    norm_num at this
    omega
  · decide

theorem toNat_unpackExponent (b : BitVec Format.binary64.numBits) :
    (unpackExponent b).toNat = b.toNat / 2 ^ 52 % 2 ^ 11 := by
  simp [unpackExponent, Nat.shiftRight_eq_div_pow]

theorem toNat_unpackExponent_le {b : BitVec Format.binary64.numBits}
    (h : unpackExponent b ≠ -1#_) : (unpackExponent b).toNat ≤ 2046 := by
  have hlt := (unpackExponent b).isLt
  by_contra hgt
  refine h (BitVec.eq_of_toNat_eq ?_)
  have hmax : (-1#11).toNat = 2047 := by decide
  have hsize : (2 : Nat) ^ Format.binary64.exponentBits = 2048 := rfl
  rw [hmax]
  omega

theorem unpack_finite_bounds {b : BitVec Format.binary64.numBits} {s : Sign} {m : Nat} {e : Int}
    {hpos : 0 < m} (h : UnpackedFloat.unpack Format.binary64 b = .finite s m e hpos) :
    m < 2 ^ 53 ∧ e ≤ 971 := by
  have hfinite : unpackExponent b ≠ -1#_ := (isFinite_unpack_iff b).1 (by rw [h]; rfl)
  have hexponent := toNat_unpackExponent_le hfinite
  have hbias : (Format.binary64.exponentBias : Int) = 1023 := rfl
  unfold UnpackedFloat.unpack at h
  dsimp only at h
  rw [if_neg hfinite] at h
  split at h
  · rename_i hzero
    split at h
    · cases h
    · injection h with _ hm he
      have hnone : (unpackExponent b).toNat = 0 := by rw [hzero]; rfl
      have hlt := (unpackMantissa b).isLt
      rw [hbias] at he
      simp only at hlt
      omega
  · injection h with _ hm he
    have hlt := (1#1 ++ unpackMantissa b).isLt
    rw [hbias] at he
    simp only at hlt
    omega

theorem unpack_of_isFinite {x : Float.Model} (h : x.isFinite = true) :
    (∃ s, x.unpack = .zero s) ∨
      ∃ s m e hpos, x.unpack = .finite s m e hpos ∧ m < 2 ^ 53 ∧ e ≤ 971 := by
  unfold Float.Model.isFinite at h
  cases hx : x.unpack with
  | notANumber => rw [hx] at h; cases h
  | infinity s => rw [hx] at h; cases h
  | zero s => exact .inl ⟨s, rfl⟩
  | finite s m e hpos => exact .inr ⟨s, m, e, hpos, rfl, unpack_finite_bounds hx⟩

end Gelf.Rounding
