import Gelf.Json.Scan
import Gelf.Proofs.Decimal.Rounding

/-!
# Scaling of significands

Reading a number rounds three times: its significand, the power of ten, and their product. As long
as the exact value stays a few steps below the range of floats, the result is finite. A quotient is
always finite, because every power that divides is at least ten.
-/

namespace Gelf.Json

open Float.Model (Format UnpackedFloat totalExponent)
open Float.Model.UnpackedFloat

/-- A float that came from rounding a positive natural number: it has all bits of its mantissa, and
is above the number by at most one in the last place. -/
def IsNear (n : Nat) : UnpackedFloat → Prop
  | .finite .positive m e _ =>
    m.log2 = 52 ∧ (n.log2 : Int) - 52 ≤ e ∧ m * 2 ^ (e + 52).toNat ≤ n * (2 ^ 52 + 1)
  | _ => False

instance (n : Nat) (x : UnpackedFloat) : Decidable (IsNear n x) := by
  unfold IsNear
  split <;> infer_instance

theorem IsNear.exists_finite {n : Nat} {x : UnpackedFloat} (h : IsNear n x) :
    ∃ m e hpos, x = .finite .positive m e hpos ∧ m.log2 = 52 ∧ (n.log2 : Int) - 52 ≤ e ∧
      (m : ℚ) * 2 ^ e ≤ n * (1 + 1 / 2 ^ 52) := by
  match x, h with
  | .finite .positive m e hpos, ⟨hm, he, hle⟩ =>
    refine ⟨m, e, hpos, rfl, hm, he, ?_⟩
    have hcast : (m : ℚ) * 2 ^ (e + 52).toNat ≤ n * (2 ^ 52 + 1) := by exact_mod_cast hle
    have hexponent : ((e + 52).toNat : Int) = e + 52 := by omega
    rw [← zpow_natCast, hexponent, zpow_add₀ (by norm_num)] at hcast
    norm_num at hcast ⊢
    linarith

theorem IsNear.isFinite {n : Nat} {x : Float} (h : IsNear n x.toModel.unpack) :
    x.isFinite = true := by
  obtain ⟨m, e, hpos, heq, -⟩ := h.exists_finite
  show x.toModel.unpack.isFinite = true
  rw [heq]
  rfl

theorem exponent_le_of_lt {m : Nat} {e : Int} (hm : m.log2 = 52)
    (hlt : (m : ℚ) * 2 ^ e < 2 ^ 1024) : e ≤ 971 := by
  have hpos : m ≠ 0 := by
    rintro rfl
    simp at hm
  have hlow : ((2 ^ 52 : Nat) : ℚ) ≤ m := by exact_mod_cast ((Nat.log2_eq_iff hpos).1 hm).1
  have hpow : (2 : ℚ) ^ (52 + e) < 2 ^ (1024 : Int) := calc
    (2 : ℚ) ^ (52 + e) = ((2 ^ 52 : Nat) : ℚ) * 2 ^ e := by
      rw [zpow_add₀ (by norm_num)]
      norm_num
    _ ≤ m * 2 ^ e := by gcongr
    _ < 2 ^ (1024 : Int) := by exact_mod_cast hlt
  have := (zpow_lt_zpow_iff_right₀ (by norm_num : (1 : ℚ) < 2)).1 hpow
  omega

/-! ### Significands and powers of ten -/

theorem log2_mul_two_pow {n : Nat} (hn : n ≠ 0) (a : Nat) : (n * 2 ^ a).log2 = n.log2 + a := by
  induction a with
  | zero => rw [Nat.pow_zero, Nat.mul_one, Nat.add_zero]
  | succ a ih =>
    have hne : n * 2 ^ a ≠ 0 := Nat.mul_ne_zero hn (Nat.two_pow_pos a).ne'
    calc (n * 2 ^ (a + 1)).log2 = (2 * (n * 2 ^ a)).log2 := by congr 1; ring
      _ = n.log2 + (a + 1) := by rw [Nat.log2_two_mul hne, ih, Nat.add_assoc]

theorem ofNat_eq_roundWithAccuracy {n : Nat} (hn : n ≠ 0) :
    UnpackedFloat.ofNat Format.binary64 n =
      roundWithAccuracy Format.binary64 .positive (n * 2 ^ (52 - n.log2))
        (-(52 - n.log2 : Nat)) .exact := by
  have htarget : Format.binary64.targetExponent (totalExponent n 0) = (n.log2 : Int) - 52 := by
    have hbits : (Format.binary64.mantissaBits : Int) = 53 := rfl
    have hleast : Format.binary64.minExponent = -1074 := rfl
    simp only [Format.targetExponent, totalExponent, hbits, hleast]
    omega
  have hshift : (-((n.log2 : Int) - 52)).toNat = 52 - n.log2 := by omega
  have hpositive : compare (n : Int) 0 = .gt := compare_gt_iff_gt.2 (by omega)
  rw [UnpackedFloat.ofNat, UnpackedFloat.ofInt, UnpackedFloat.normalize, hpositive]
  simp only [UnpackedFloat.round, decreaseExponent, Int.toNat_natCast, htarget, Int.zero_sub,
    hshift, Nat.shiftLeft_eq]

theorem isNear_pack {n a : Nat} (hn : n ≠ 0) (ha : 52 ≤ n.log2 + a)
    (hsize : (n : ℚ) * (1 + 1 / 2 ^ 52) < 2 ^ 1024) :
    IsNear n (Float.Model.pack (roundWithAccuracy Format.binary64 .positive (n * 2 ^ a) (-a)
      .exact)).unpack := by
  have hlong := log2_mul_two_pow hn a
  obtain ⟨m, e, hpos, heq, hm, he, hle⟩ := Rounding.exists_roundWithAccuracy_eq .positive .exact
    (m := n * 2 ^ a) (e := -a) (by omega) (by omega)
  have hvalue : ((n * 2 ^ a : Nat) : ℚ) * 2 ^ (-a : Int) = n := by
    rw [zpow_neg, zpow_natCast, Nat.cast_mul, Nat.cast_pow, Nat.cast_ofNat]
    field_simp
  rw [hvalue] at hle
  have hhigh : e ≤ 971 := exponent_le_of_lt hm (hle.trans_lt hsize)
  rw [heq, Rounding.unpack_pack_of_log2_eq hpos hm (by omega) hhigh]
  refine ⟨hm, by omega, ?_⟩
  have hexponent : ((e + 52).toNat : Int) = e + 52 := by omega
  have hcast : (m : ℚ) * 2 ^ (e + 52).toNat ≤ n * (2 ^ 52 + 1) := by
    rw [← zpow_natCast, hexponent, zpow_add₀ (by norm_num)]
    norm_num at hle ⊢
    linarith
  exact_mod_cast hcast

theorem isNear_toFloat {n : Nat} (hn : n ≠ 0) (hsize : n < 2 ^ 64) :
    IsNear n (UInt64.ofNat n).toFloat.toModel.unpack := by
  have hsize' : (n : ℚ) * (1 + 1 / 2 ^ 52) < 2 ^ 1024 := by
    have hcast : (n : ℚ) < 2 ^ 64 := by exact_mod_cast hsize
    calc (n : ℚ) * (1 + 1 / 2 ^ 52) ≤ 2 ^ 64 * 2 := by gcongr; norm_num
      _ = 2 ^ 65 := by norm_num
      _ < 2 ^ 1024 := pow_lt_pow_right₀ (by norm_num) (by norm_num)
  show IsNear n (Float.Model.pack (UnpackedFloat.ofNat _ (UInt64.ofNat n).toNat)).unpack
  rw [UInt64.toNat_ofNat_of_lt' hsize, ofNat_eq_roundWithAccuracy hn]
  exact isNear_pack hn (by omega) hsize'

theorem ten_pow_lt {n : Nat} (hn : n ≤ 308) :
    ((10 ^ n : Nat) : ℚ) * (1 + 1 / 2 ^ 52) < 2 ^ 1024 := by
  have hpow : 10 ^ n ≤ 10 ^ 308 := pow_le_pow_right₀ (by norm_num) hn
  have hmul : 10 ^ n * (2 ^ 52 + 1) ≤ 10 ^ 308 * (2 ^ 52 + 1) := Nat.mul_le_mul_right _ hpow
  have hmax : 10 ^ 308 * (2 ^ 52 + 1) < 2 ^ 1024 * 2 ^ 52 := by decide +kernel
  have hnat : 10 ^ n * (2 ^ 52 + 1) < 2 ^ 1024 * 2 ^ 52 := hmul.trans_lt hmax
  have hcast := (Nat.cast_lt (α := ℚ)).2 hnat
  rw [Nat.cast_mul, Nat.cast_mul (2 ^ 1024), Nat.cast_pow 2 1024, Nat.cast_pow 2 52,
    Nat.cast_ofNat] at hcast
  have hscale : (1 + 1 / 2 ^ 52 : ℚ) = ((2 ^ 52 + 1 : Nat) : ℚ) / 2 ^ 52 := by norm_num
  rw [hscale, ← mul_div_assoc]
  exact (div_lt_iff₀ (by positivity)).2 hcast

theorem isNear_powerOfTen {n : Nat} (hn : n ≤ 308) :
    IsNear (10 ^ n) (powerOfTen n).toModel.unpack := by
  by_cases hsmall : n ≤ 22
  · have hall : ∀ n < 23, IsNear (10 ^ n) (powerOfTen n).toModel.unpack := by decide +kernel
    exact hall n (Nat.lt_succ_of_le hsmall)
  · have hpower : powerOfTen n = .ofModel (.pack (roundWithAccuracy Format.binary64 .positive
        (10 ^ n * 2 ^ 53) (-(53 : Nat)) .exact)) := by
      unfold powerOfTen Float.ofScientific
      rw [dif_neg (by omega)]
      apply congrArg (fun u => Float.ofModel (Float.Model.pack u))
      have hbits : (2 : Int) ^ Format.binary64.exponentBits = 2048 := rfl
      unfold UnpackedFloat.ofScientific
      simp only [Bool.false_eq_true, ↓reduceIte, hbits, Int.ofNat_eq_natCast]
      rw [dif_neg one_ne_zero, if_neg (by omega), if_neg (by omega), if_pos (by omega)]
      show roundWithAccuracy _ .positive (1 <<< 53 * 10 ^ (n : Int).toNat) (-(53 : Nat) + 0) _ = _
      rw [Nat.shiftLeft_eq, Nat.one_mul, Nat.mul_comm, Int.toNat_natCast, Int.add_zero]
    rw [hpower]
    exact isNear_pack (Nat.pow_pos (by decide)).ne' (by omega) (ten_pow_lt hn)

/-! ### Products and quotients -/

/-- The greatest value that three roundings cannot carry out of the range of floats. -/
def safeBound : ℚ := (2 ^ 50 - 1) * 2 ^ 974

theorem safeBound_nonneg : 0 ≤ safeBound :=
  mul_nonneg (by norm_num) (pow_nonneg (by norm_num) 974)

theorem safeBound_mul_lt : safeBound * (1 + 1 / 2 ^ 52) ^ 3 < 2 ^ 1024 := by
  have hpow : (0 : ℚ) < 2 ^ 974 := by positivity
  calc safeBound * (1 + 1 / 2 ^ 52) ^ 3
    _ = (2 ^ 50 - 1) * (1 + 1 / 2 ^ 52) ^ 3 * 2 ^ 974 := by rw [safeBound, mul_right_comm]
    _ < 2 ^ 50 * 2 ^ 974 := mul_lt_mul_of_pos_right (by norm_num) hpow
    _ = 2 ^ 1024 := (pow_add 2 50 974).symm

theorem isFinite_mul {x y : Float} {s t : Nat} (hx : IsNear s x.toModel.unpack)
    (hy : IsNear t y.toModel.unpack) (hsafe : (s : ℚ) * t ≤ safeBound) :
    (x * y).isFinite = true := by
  obtain ⟨m, e, hpos, hxeq, hm, he, hle⟩ := hx.exists_finite
  obtain ⟨m', e', hpos', hyeq, hm', he', hle'⟩ := hy.exists_finite
  have hlow := Nat.mul_le_mul ((Nat.log2_eq_iff hpos.ne').1 hm).1
    ((Nat.log2_eq_iff hpos'.ne').1 hm').1
  have hlog : 104 ≤ (m * m').log2 := (Nat.le_log2 (Nat.mul_pos hpos hpos').ne').2 hlow
  obtain ⟨r, f, hrpos, heq, hr, -, hbound⟩ := Rounding.exists_roundWithAccuracy_eq
    .positive .exact (m := m * m') (e := e + e') (by omega) (by omega)
  have hvalue : ((m * m' : Nat) : ℚ) * 2 ^ (e + e') = (m * 2 ^ e) * (m' * 2 ^ e') := by
    rw [zpow_add₀ (by norm_num)]
    push_cast
    ring
  have hproduct : (m * 2 ^ e : ℚ) * (m' * 2 ^ e') ≤
      (s * (1 + 1 / 2 ^ 52)) * (t * (1 + 1 / 2 ^ 52)) := by gcongr
  have hf : f ≤ 971 := by
    apply exponent_le_of_lt hr
    rw [hvalue] at hbound
    calc (r : ℚ) * 2 ^ f ≤ (m * 2 ^ e) * (m' * 2 ^ e') * (1 + 1 / 2 ^ 52) := hbound
      _ ≤ (s * (1 + 1 / 2 ^ 52)) * (t * (1 + 1 / 2 ^ 52)) * (1 + 1 / 2 ^ 52) :=
        mul_le_mul_of_nonneg_right hproduct (by norm_num)
      _ = s * t * (1 + 1 / 2 ^ 52) ^ 3 := by ring
      _ ≤ safeBound * (1 + 1 / 2 ^ 52) ^ 3 := mul_le_mul_of_nonneg_right hsafe (by norm_num)
      _ < 2 ^ 1024 := safeBound_mul_lt
  show (Float.Model.pack (UnpackedFloat.mul _ x.toModel.unpack y.toModel.unpack)).isFinite = true
  rw [hxeq, hyeq]
  show (Float.Model.pack (roundWithAccuracy _ .positive (m * m') (e + e') .exact)).isFinite = true
  rw [heq]
  exact Rounding.isFinite_pack_finite .positive hrpos hf

theorem log2_div_le {m n k : Nat} (hn : n ≠ 0) (hq : m * 2 ^ k / n ≠ 0) :
    (m * 2 ^ k / n).log2 + n.log2 ≤ m.log2 + k := by
  have hm : m ≠ 0 := by
    rintro rfl
    simp at hq
  have hlt : 2 ^ ((m * 2 ^ k / n).log2 + n.log2) < 2 ^ (m.log2 + k + 1) := calc
    _ = 2 ^ (m * 2 ^ k / n).log2 * 2 ^ n.log2 := Nat.pow_add 2 _ _
    _ ≤ m * 2 ^ k / n * n := Nat.mul_le_mul (Nat.log2_self_le hq) (Nat.log2_self_le hn)
    _ ≤ m * 2 ^ k := Nat.div_mul_le_self _ _
    _ < 2 ^ ((m * 2 ^ k).log2 + 1) := Nat.lt_log2_self
    _ = 2 ^ (m.log2 + k + 1) := by rw [log2_mul_two_pow hm]
  exact Nat.lt_succ_iff.1 ((Nat.pow_lt_pow_iff_right (by decide)).1 hlt)

theorem isFinite_div {x y : Float} {t : Nat} (hx : x.isFinite = true)
    (hy : IsNear t y.toModel.unpack) (ht : 2 ≤ t) : (x / y).isFinite = true := by
  obtain ⟨m', e', hpos', hyeq, hm', he', -⟩ := hy.exists_finite
  have hlog' : 1 ≤ t.log2 := (Nat.le_log2 (by omega)).2 ht
  show (Float.Model.pack (UnpackedFloat.div _ x.toModel.unpack y.toModel.unpack)).isFinite = true
  rcases Rounding.unpack_of_isFinite hx with ⟨s, hxeq⟩ | ⟨s, m, e, hpos, hxeq, hm, he⟩
  · rw [hxeq, hyeq]
    exact Rounding.isFinite_pack_zero _
  · rw [hxeq, hyeq]
    have hlog : m.log2 < 53 := (Nat.log2_lt hpos.ne').2 hm
    obtain ⟨q, f, accuracy, hdiv⟩ : ∃ q f accuracy,
        divCore Format.binary64 m e m' e' = (q, f, accuracy) := ⟨_, _, _, rfl⟩
    show (Float.Model.pack (let (q, f, accuracy) := divCore Format.binary64 m e m' e'
      roundWithAccuracy _ (s / .positive) q f accuracy)).isFinite = true
    rw [hdiv]
    dsimp only
    have hbound : max (max f ((q.log2 : Int) - 52 + f)) (-1074) + 1 ≤ 971 := by
      have hbits : (Format.binary64.mantissaBits : Int) = 53 := rfl
      have hleast : Format.binary64.minExponent = -1074 := rfl
      simp only [divCore, Format.targetExponent, totalExponent, hbits, hleast, hm',
        Nat.shiftLeft_eq, Prod.mk.injEq] at hdiv
      obtain ⟨hq, hf, -⟩ := hdiv
      rw [hf] at hq
      by_cases hzero : q = 0
      · rw [hzero, Nat.log2_zero]
        omega
      · have hqlog := log2_div_le hpos'.ne' (hq ▸ hzero)
        rw [hq, hm'] at hqlog
        omega
    rcases Rounding.exponent_roundWithAccuracy_le (s / .positive) q f accuracy with
      hround | ⟨r, g, hrpos, hround, hg⟩
    · rw [hround]
      exact Rounding.isFinite_pack_zero _
    · rw [hround]
      exact Rounding.isFinite_pack_finite _ hrpos (hg.trans hbound)

theorem isFinite_neg {x : Float} (hx : x.isFinite = true) : (-x).isFinite = true := by
  show (Float.Model.pack x.toModel.unpack.neg).isFinite = true
  rcases Rounding.unpack_of_isFinite hx with ⟨s, hxeq⟩ | ⟨s, m, e, hpos, hxeq, -, he⟩
  · rw [hxeq]
    exact Rounding.isFinite_pack_zero _
  · rw [hxeq]
    exact Rounding.isFinite_pack_finite _ hpos he

/-! ### Scaling -/

theorem isFinite_div_powerOfTen {x : Float} (hx : x.isFinite = true) {n : Nat} (hpos : 0 < n)
    (hn : n ≤ 308) : (x / powerOfTen n).isFinite = true := by
  apply isFinite_div hx (isNear_powerOfTen hn)
  calc 2 ≤ 10 ^ 1 := by decide
    _ ≤ 10 ^ n := Nat.pow_le_pow_right (by decide) hpos

theorem isFinite_scaleDown {x : Float} {digits : Nat} (hx : x.isFinite = true)
    (hdigits : 0 < digits) : (scaleDown x digits).isFinite = true := by
  fun_induction scaleDown x digits with
  | case1 x => exact hx
  | case2 x digits _ hsmall => exact isFinite_div_powerOfTen hx hdigits hsmall
  | case3 x digits _ hlarge ih =>
    exact ih (isFinite_div_powerOfTen hx (by decide) (Nat.le_refl 308)) (by omega)

theorem safeBound_lt : safeBound < 10 ^ (309 : Int) := by
  have hnat : (2 ^ 50 - 1) * 2 ^ 974 < 10 ^ 309 := by decide +kernel
  have hcast := (Nat.cast_lt (α := ℚ)).2 hnat
  rw [Nat.cast_mul, Nat.cast_pow, Nat.cast_pow] at hcast
  rw [safeBound]
  norm_num only [Nat.cast_ofNat, zpow_ofNat] at hcast ⊢
  exact hcast

theorem exponent_le_of_safe {significand : Nat} {e : Int} (hpos : significand ≠ 0)
    (hsafe : (significand : ℚ) * 10 ^ e ≤ safeBound) : e ≤ 308 := by
  have hone : (1 : ℚ) ≤ significand := by exact_mod_cast Nat.one_le_iff_ne_zero.2 hpos
  have hlt : (10 : ℚ) ^ e < 10 ^ (309 : Int) := calc
    (10 : ℚ) ^ e ≤ significand * 10 ^ e := le_mul_of_one_le_left (by positivity) hone
    _ ≤ safeBound := hsafe
    _ < 10 ^ (309 : Int) := safeBound_lt
  have := (zpow_lt_zpow_iff_right₀ (by norm_num : (1 : ℚ) < 10)).1 hlt
  omega

theorem exists_scale_eq (negative : Bool) {significand : Nat} {e : Int}
    (hsize : significand < 2 ^ 64) (hsafe : (significand : ℚ) * 10 ^ e ≤ safeBound) :
    ∃ y, scale negative significand e = .ok (.real y) := by
  let x := (UInt64.ofNat significand).toFloat
  let y := if x == 0 then x
    else if e < 0 then scaleDown x e.natAbs
    else if e.natAbs ≤ 308 then x * powerOfTen e.natAbs
    else 1 / 0
  have hy : y.isFinite = true := by
    by_cases hzero : significand = 0
    · have hx : x = (UInt64.ofNat 0).toFloat := by rw [← hzero]
      have hy : y = (UInt64.ofNat 0).toFloat := by
        simp only [y, hx]
        exact if_pos (by decide +kernel)
      rw [hy]
      decide +kernel
    · have hnear : IsNear significand x.toModel.unpack := isNear_toFloat hzero hsize
      have hx : x.isFinite = true := hnear.isFinite
      have he := exponent_le_of_safe hzero hsafe
      simp only [y]
      split
      · exact hx
      · split
        · exact isFinite_scaleDown hx (by omega)
        · have hle : e.natAbs ≤ 308 := by omega
          rw [if_pos hle]
          apply isFinite_mul hnear (isNear_powerOfTen hle)
          have hnat : ((e.natAbs : Nat) : Int) = e := by omega
          rw [Nat.cast_pow, ← zpow_natCast, hnat]
          exact hsafe
  have hsigned : (if negative then -y else y).isFinite = true := by
    split
    · exact isFinite_neg hy
    · exact hy
  refine ⟨⟨_, hsigned⟩, ?_⟩
  unfold scale
  dsimp only
  rw [FiniteFloat.ofFloat?, dif_pos hsigned]

end Gelf.Json
