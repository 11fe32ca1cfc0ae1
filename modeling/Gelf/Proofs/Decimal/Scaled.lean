import Gelf.Proofs.Decimal.Nearest

/-!
# Scaling to the nearest float

A number is read by rounding its digits to a float, and rounding that once more after it was scaled
by a power of ten. The powers up to the 22nd are floats. With such a power what is scaled is off by
the first rounding alone, which does nothing to digits that a float holds.
-/

namespace Gelf.Json

open Float.Model (Format UnpackedFloat totalExponent)
open Float.Model.UnpackedFloat
open Rounding (IsNearest IsNormal Locates RoundsTo)

/-! ### Significands -/

theorem exists_roundsTo_toFloat {n : Nat} (hn : n ≠ 0) (hsize : n < 2 ^ 64) :
    ∃ r, RoundsTo n (UInt64.ofNat n).toFloat (n.log2 - 52) r := by
  have hlog : n.log2 < 64 := (Nat.log2_lt hn).2 hsize
  have hlong := log2_mul_two_pow hn (52 - n.log2)
  have hexact : Locates (n * 2 ^ (52 - n.log2)) (n * 2 ^ (52 - n.log2) : Nat) .exact := rfl
  obtain ⟨r, hr⟩ := Rounding.exists_roundsTo (e := -(52 - n.log2 : Nat)) hexact (by omega)
    (by omega) (by omega)
  have hvalue : ((n * 2 ^ (52 - n.log2) : Nat) : ℚ) * 2 ^ (-(52 - n.log2 : Nat) : Int) = n := by
    rw [zpow_neg, zpow_natCast, Nat.cast_mul, Nat.cast_pow, Nat.cast_ofNat]
    field_simp
  have hplace : ((n * 2 ^ (52 - n.log2)).log2 : Int) - 52 + -(52 - n.log2 : Nat) =
      n.log2 - 52 := by omega
  rw [hvalue, hplace, ← ofNat_eq_roundWithAccuracy hn] at hr
  refine ⟨r, ?_⟩
  have hfloat : (UInt64.ofNat n).toFloat =
      .ofModel (.pack (UnpackedFloat.ofNat Format.binary64 n)) := by
    show Float.ofModel (.pack (UnpackedFloat.ofNat _ (UInt64.ofNat n).toNat)) = _
    rw [UInt64.toNat_ofNat_of_lt' hsize]
  rw [hfloat]
  exact hr

/-- What is rounded is off by at most half of the last place. -/
theorem abs_sub_le_of_roundsTo {v : ℚ} {x : Float} {q : Int} {r : Nat} (h : RoundsTo v x q r) :
    |r * 2 ^ q - v| ≤ v / 2 ^ 53 := by
  have hpow : (0 : ℚ) < 2 ^ q := zpow_pos (by norm_num) q
  have hscaled : v = v / 2 ^ q * 2 ^ q := by field_simp
  have hlow := h.low
  have hlower := h.nearest.lower
  have hupper := h.nearest.upper
  have hhalf : |r - v / 2 ^ q| ≤ v / 2 ^ q / 2 ^ 53 := by
    rw [abs_le]
    constructor <;> linarith
  calc |r * 2 ^ q - v| = |r - v / 2 ^ q| * 2 ^ q := by
        rw [← abs_of_pos hpow, ← abs_mul, abs_of_pos hpow, sub_mul, ← hscaled]
    _ ≤ v / 2 ^ q / 2 ^ 53 * 2 ^ q := by gcongr
    _ = v / 2 ^ 53 := by field_simp

/-- A whole number is not rounded if a float holds all its digits. -/
theorem eq_of_roundsTo {n : Nat} {x : Float} {q : Int} {r : Nat} (h : RoundsTo n x q r)
    (hn : n ≤ 2 ^ 53) : (r : ℚ) * 2 ^ q = n := by
  have hpow : (0 : ℚ) < 2 ^ q := zpow_pos (by norm_num) q
  have hcast : (n : ℚ) ≤ 2 ^ 53 := by exact_mod_cast hn
  have hlow : (2 ^ 52 : ℚ) * 2 ^ q ≤ n := (le_div_iff₀ hpow).1 h.low
  suffices hwhole : ∃ k : Nat, (n : ℚ) / 2 ^ q = k by
    obtain ⟨k, hk⟩ := hwhole
    have hnearest := h.nearest
    rw [hk] at hnearest
    rw [hnearest.unique (Rounding.isNearest_self k), ← hk]
    field_simp
  have hsmall : (2 : ℚ) ^ q ≤ 2 ^ (1 : Int) := by
    norm_num
    linarith
  have hq := (zpow_le_zpow_iff_right₀ (by norm_num : (1 : ℚ) < 2)).1 hsmall
  rcases Int.le_iff_lt_or_eq.1 hq with hlt | rfl
  · obtain ⟨k, hk⟩ : ∃ k : Nat, q = -k := ⟨(-q).toNat, by omega⟩
    refine ⟨n * 2 ^ k, ?_⟩
    rw [hk, zpow_neg, zpow_natCast, div_inv_eq_mul]
    push_cast
    rfl
  · refine ⟨2 ^ 52, ?_⟩
    rw [zpow_one] at hlow ⊢
    push_cast
    linarith

/-! ### Powers of ten -/

/-- A float that is a whole number. -/
def IsWhole (n : Nat) : UnpackedFloat → Prop
  | .finite .positive m e _ =>
    m.log2 = 52 ∧ -52 ≤ e ∧ e ≤ 21 ∧ m * 2 ^ (e + 52).toNat = n * 2 ^ 52
  | _ => False

instance (n : Nat) : (x : UnpackedFloat) → Decidable (IsWhole n x)
  | .finite .positive _ _ _ => inferInstanceAs (Decidable (_ ∧ _))
  | .finite .negative _ _ _ | .infinity _ | .notANumber | .zero _ => instDecidableFalse

theorem exists_isNormal_powerOfTen {k : Nat} (hk : k ≤ 22) :
    ∃ m q, IsNormal (powerOfTen k) m q ∧ -52 ≤ q ∧ q ≤ 21 ∧ (m : ℚ) * 2 ^ q = 10 ^ k := by
  have hall : ∀ k < 23, IsWhole (10 ^ k) (powerOfTen k).toModel.unpack := by decide +kernel
  have hwhole := hall k (Nat.lt_succ_of_le hk)
  cases hunpack : (powerOfTen k).toModel.unpack with
  | finite s m q hpos =>
    rw [hunpack] at hwhole
    cases s with
    | negative => exact hwhole.elim
    | positive =>
      obtain ⟨hm, hlow, hhigh, heq⟩ := hwhole
      refine ⟨m, q, ⟨hm, hpos, hunpack⟩, hlow, hhigh, ?_⟩
      have hcast : (m : ℚ) * 2 ^ (q + 52).toNat = 10 ^ k * 2 ^ 52 := by exact_mod_cast heq
      have hexponent : ((q + 52).toNat : Int) = q + 52 := by omega
      rw [← zpow_natCast, hexponent, zpow_add₀ (by norm_num)] at hcast
      norm_num at hcast ⊢
      linarith
  | infinity s => rw [hunpack] at hwhole; exact hwhole.elim
  | notANumber => rw [hunpack] at hwhole; exact hwhole.elim
  | zero s => rw [hunpack] at hwhole; exact hwhole.elim

/-! ### Products and quotients -/

variable {x y : Float} {m m' : Nat} {q q' : Int}

theorem log2_mul_mem {m n : Nat} (hm : 0 < m) (hn : 0 < n) :
    m.log2 + n.log2 ≤ (m * n).log2 ∧ (m * n).log2 ≤ m.log2 + n.log2 + 1 := by
  have hne : m * n ≠ 0 := (Nat.mul_pos hm hn).ne'
  have hlow : 2 ^ (m.log2 + n.log2) ≤ m * n := by
    rw [Nat.pow_add]
    exact Nat.mul_le_mul (Nat.log2_self_le hm.ne') (Nat.log2_self_le hn.ne')
  have hhigh : m * n < 2 ^ (m.log2 + n.log2 + 2) := by
    rw [show m.log2 + n.log2 + 2 = (m.log2 + 1) + (n.log2 + 1) by ring, Nat.pow_add]
    exact Nat.mul_lt_mul'' Nat.lt_log2_self Nat.lt_log2_self
  have hlt := (Nat.log2_lt hne).2 hhigh
  exact ⟨(Nat.le_log2 hne).2 hlow, by omega⟩

/-- A product of mantissas that have all bits together is rounded to the nearest. -/
theorem exists_roundsTo_product {n : Nat} (hm : 0 < m) (hn : 0 < n) (hlong : 52 ≤ m.log2 + n.log2)
    (hlow : -1000 ≤ (m.log2 : Int) + n.log2 + (q + q'))
    (hhigh : (m.log2 : Int) + n.log2 + (q + q') ≤ 1000) :
    ∃ p r, RoundsTo (m * 2 ^ q * (n * 2 ^ q'))
      (.ofModel (.pack (roundWithAccuracy Format.binary64 .positive (m * n) (q + q') .exact)))
      p r := by
  obtain ⟨hlog, hlog'⟩ := log2_mul_mem hm hn
  have hexact : Locates (m * n) (m * n : Nat) .exact := rfl
  obtain ⟨r, hr⟩ := Rounding.exists_roundsTo (e := q + q') hexact (by omega) (by omega) (by omega)
  have hvalue : ((m * n : Nat) : ℚ) * 2 ^ (q + q') = m * 2 ^ q * (n * 2 ^ q') := by
    rw [zpow_add₀ (by norm_num)]
    push_cast
    ring
  rw [hvalue] at hr
  exact ⟨_, r, hr⟩

theorem exists_roundsTo_mul (hx : IsNormal x m q) (hy : IsNormal y m' q')
    (hlow : -1000 ≤ q + q') (hhigh : q + q' ≤ 800) :
    ∃ p r, RoundsTo (m * 2 ^ q * (m' * 2 ^ q')) (x * y) p r := by
  obtain ⟨hlog, hpos, hunpack⟩ := hx
  obtain ⟨hlog', hpos', hunpack'⟩ := hy
  show ∃ p r, RoundsTo _ (.ofModel (.pack (UnpackedFloat.mul _ x.toModel.unpack
    y.toModel.unpack))) p r
  rw [hunpack, hunpack']
  exact exists_roundsTo_product hpos hpos' (by omega) (by omega) (by omega)

/-- What is left over by a division tells where the quotient lies. -/
theorem locates_quotient (m : Nat) {n : Nat} (hn : 0 < n) :
    Locates (m / n) (m / n) (accuracyOfFraction (m % n) n) := by
  have hpos : (0 : ℚ) < n := by exact_mod_cast hn
  have hwhole : ((m / n : Nat) : ℚ) * n + (m % n : Nat) = m := by
    exact_mod_cast Nat.div_add_mod' m n
  have hdiv : (m : ℚ) / n = (m / n : Nat) + (m % n : Nat) / n := by
    rw [← hwhole, add_div, mul_div_cancel_right₀ _ hpos.ne']
  have hlt : ((m % n : Nat) : ℚ) / n < 1 := (div_lt_one hpos).2 (by exact_mod_cast Nat.mod_lt m hn)
  rw [hdiv, accuracyOfFraction]
  split
  · rename_i hzero
    rw [hzero, Nat.cast_zero, zero_div, add_zero]
    rfl
  · rename_i hsome
    have hsome' : 0 < ((m % n : Nat) : ℚ) / n :=
      div_pos (by exact_mod_cast Nat.pos_of_ne_zero hsome) hpos
    cases hcompare : compare (2 * (m % n)) n with
    | lt =>
      have hhalf : ((2 * (m % n) : Nat) : ℚ) < n := by exact_mod_cast Nat.compare_eq_lt.1 hcompare
      have hhalf' : ((m % n : Nat) : ℚ) / n < 1 / 2 := by
        rw [div_lt_iff₀ hpos]
        push_cast at hhalf
        linarith
      exact ⟨by linarith, by linarith⟩
    | eq =>
      have hhalf : ((2 * (m % n) : Nat) : ℚ) = n := by exact_mod_cast Nat.compare_eq_eq.1 hcompare
      have hhalf' : ((m % n : Nat) : ℚ) / n = 1 / 2 := by
        rw [div_eq_iff hpos.ne']
        push_cast at hhalf
        linarith
      show _ = _
      rw [hhalf']
    | gt =>
      have hhalf : (n : ℚ) < (2 * (m % n) : Nat) := by exact_mod_cast Nat.compare_eq_gt.1 hcompare
      have hhalf' : 1 / 2 < ((m % n : Nat) : ℚ) / n := by
        rw [lt_div_iff₀ hpos]
        push_cast at hhalf
        linarith
      exact ⟨by linarith, by linarith⟩

theorem le_log2_div {m n : Nat} (hm : 0 < m) (hn : 0 < n) (s : Nat) :
    m.log2 + s ≤ (m * 2 ^ s / n).log2 + n.log2 + 1 := by
  by_cases hshort : m.log2 + s ≤ n.log2 + 1
  · omega
  · obtain ⟨k, hk⟩ : ∃ k, m.log2 + s = k + (n.log2 + 1) := ⟨m.log2 + s - (n.log2 + 1), by omega⟩
    have hlow : 2 ^ k ≤ m * 2 ^ s / n := by
      apply (Nat.le_div_iff_mul_le hn).2
      calc 2 ^ k * n ≤ 2 ^ k * 2 ^ (n.log2 + 1) := Nat.mul_le_mul_left _ Nat.lt_log2_self.le
        _ = 2 ^ m.log2 * 2 ^ s := by rw [← Nat.pow_add, ← Nat.pow_add, hk]
        _ ≤ m * 2 ^ s := Nat.mul_le_mul_right _ (Nat.log2_self_le hm.ne')
    have hne : m * 2 ^ s / n ≠ 0 := (Nat.two_pow_pos k |>.trans_le hlow).ne'
    have hlog := (Nat.le_log2 hne).2 hlow
    omega

/-- A quotient of mantissas of any length is rounded to the nearest. -/
theorem exists_roundsTo_divCore {n : Nat} (hm : 0 < m) (hn : 0 < n)
    (hlow : -1000 ≤ (m.log2 : Int) - n.log2 + (q - q'))
    (hhigh : (m.log2 : Int) - n.log2 + (q - q') ≤ 900) :
    let a := divCore Format.binary64 m q n q'
    ∃ p r, RoundsTo (m * 2 ^ q / (n * 2 ^ q'))
      (.ofModel (.pack (roundWithAccuracy Format.binary64 .positive a.1 a.2.1 a.2.2))) p r := by
  intro a
  obtain ⟨s, hs⟩ : ∃ s : Nat, s = 53 + n.log2 - m.log2 := ⟨_, rfl⟩
  have hcore : divCore Format.binary64 m q n q' =
      (m * 2 ^ s / n, q - q' - s, accuracyOfFraction (m * 2 ^ s % n) n) := by
    have hbits : (Format.binary64.mantissaBits : Int) = 53 := rfl
    have hleast : Format.binary64.minExponent = -1074 := rfl
    have htarget : min (q - q') (Format.binary64.targetExponent (totalExponent m q -
        totalExponent n q')) = q - q' - s := by
      simp only [Format.targetExponent, totalExponent, hbits, hleast]
      omega
    have hshift : (q - q' - (q - q' - s)).toNat = s := by omega
    simp only [divCore, htarget, hshift, Nat.shiftLeft_eq]
  have hlog := le_log2_div hm hn s
  have hne : m * 2 ^ s / n ≠ 0 := by
    intro hzero
    rw [hzero, Nat.log2_zero] at hlog
    omega
  have hlog' := log2_div_le hn.ne' hne
  obtain ⟨r, hr⟩ := Rounding.exists_roundsTo (e := q - q' - s)
    (locates_quotient (m * 2 ^ s) hn) (by omega) (by omega) (by omega)
  have hvalue : ((m * 2 ^ s : Nat) : ℚ) / n * 2 ^ (q - q' - s) = m * 2 ^ q / (n * 2 ^ q') := by
    rw [zpow_sub₀ (by norm_num), zpow_sub₀ (by norm_num), zpow_natCast]
    push_cast
    field_simp
  rw [hvalue] at hr
  simp only [a, hcore]
  exact ⟨_, r, hr⟩

theorem exists_roundsTo_div (hx : IsNormal x m q) (hy : IsNormal y m' q')
    (hlow : -1000 ≤ q - q') (hhigh : q - q' ≤ 900) :
    ∃ p r, RoundsTo (m * 2 ^ q / (m' * 2 ^ q')) (x / y) p r := by
  obtain ⟨hlog, hpos, hunpack⟩ := hx
  obtain ⟨hlog', hpos', hunpack'⟩ := hy
  show ∃ p r, RoundsTo _ (.ofModel (.pack (UnpackedFloat.div _ x.toModel.unpack
    y.toModel.unpack))) p r
  rw [hunpack, hunpack']
  exact exists_roundsTo_divCore hpos hpos' (by omega) (by omega)

/-! ### Scaling -/

theorem beq_zero_of_isNormal (hx : IsNormal x m q) : (x == 0) = false := by
  obtain ⟨-, hpos, hunpack⟩ := hx
  have hzero : (0 : Float).toModel.unpack = .zero .positive := rfl
  show (x.toModel.unpack.compare (0 : Float).toModel.unpack == some .eq) = false
  rw [hunpack, hzero]
  rfl

theorem isFinite_of_isNormal (hx : IsNormal x m q) : x.isFinite = true := by
  obtain ⟨-, hpos, hunpack⟩ := hx
  show x.toModel.unpack.isFinite = true
  rw [hunpack]
  rfl

theorem scale_of_isNormal {n : Nat} {e : Int} (hx : IsNormal (UInt64.ofNat n).toFloat m q)
    (he : e.natAbs ≤ 308) {y : FiniteFloat}
    (hy : y.val = if e < 0 then (UInt64.ofNat n).toFloat / powerOfTen e.natAbs
      else (UInt64.ofNat n).toFloat * powerOfTen e.natAbs) :
    scale false n e = .ok (.real y) := by
  have hdown : scaleDown (UInt64.ofNat n).toFloat e.natAbs =
      (UInt64.ofNat n).toFloat / powerOfTen e.natAbs := by
    rw [scaleDown, beq_zero_of_isNormal hx, if_neg Bool.false_ne_true, if_pos he]
  unfold scale
  simp only [beq_zero_of_isNormal hx, Bool.false_eq_true, ↓reduceIte, hdown, he, ← hy,
    FiniteFloat.ofFloat?_val]

/-- A float that holds a number is scaled to what the scaled number is rounded to. -/
theorem exists_roundsTo_scaled (hx : IsNormal x m q) (hlow : -52 ≤ q) (hhigh : q ≤ 12) {e : Int}
    (he : e.natAbs ≤ 22) :
    ∃ p r, RoundsTo (m * 2 ^ q * 10 ^ e)
      (if e < 0 then x / powerOfTen e.natAbs else x * powerOfTen e.natAbs) p r := by
  obtain ⟨m', q', hten, hlow', hhigh', hvalue⟩ := exists_isNormal_powerOfTen he
  by_cases hneg : e < 0
  · have hpower : (10 : ℚ) ^ e = ((m' : ℚ) * 2 ^ q')⁻¹ := by
      rw [hvalue, ← zpow_natCast, ← zpow_neg]
      congr 1
      omega
    rw [if_pos hneg, hpower, ← div_eq_mul_inv]
    exact exists_roundsTo_div hx hten (by omega) (by omega)
  · have hpower : (10 : ℚ) ^ e = m' * 2 ^ q' := by
      rw [hvalue, ← zpow_natCast]
      congr 1
      omega
    rw [if_neg hneg, hpower]
    exact exists_roundsTo_mul hx hten (by omega) (by omega)

/-- A significand times a small power of ten is read as what a number close by is rounded to, and
that number is exact if a float holds the significand. -/
theorem exists_scale_roundsTo {n : Nat} {e : Int} (hn : n ≠ 0) (hsize : n < 2 ^ 64)
    (he : e.natAbs ≤ 22) :
    ∃ (y : FiniteFloat) (v : ℚ) (p : Int) (r : Nat), scale false n e = .ok (.real y) ∧
      RoundsTo v y.val p r ∧
      |v - n * 10 ^ e| ≤ n * 10 ^ e / 2 ^ 53 ∧ (n ≤ 2 ^ 53 → v = n * 10 ^ e) := by
  have hlog : n.log2 < 64 := (Nat.log2_lt hn).2 hsize
  obtain ⟨s, hs⟩ := exists_roundsTo_toFloat hn hsize
  obtain ⟨m, q, hx, hqlow, hqhigh, hvalue, -⟩ := hs.exists_normal
  obtain ⟨p, r, hscaled⟩ := exists_roundsTo_scaled hx (by omega) (by omega) he
  obtain ⟨m', q', hy, -⟩ := hscaled.exists_normal
  have hpow : (0 : ℚ) < 10 ^ e := zpow_pos (by norm_num) e
  refine ⟨⟨_, isFinite_of_isNormal hy⟩, _, p, r, scale_of_isNormal hx (by omega) rfl, hscaled, ?_,
    ?_⟩
  · rw [hvalue, ← sub_mul, abs_mul, abs_of_pos hpow, mul_div_right_comm]
    exact mul_le_mul_of_nonneg_right (abs_sub_le_of_roundsTo hs) hpow.le
  · intro hsmall
    rw [hvalue, eq_of_roundsTo hs hsmall]

end Gelf.Json
