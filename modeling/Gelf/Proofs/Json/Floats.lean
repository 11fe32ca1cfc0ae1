import Gelf.Proofs.Decimal.Digits
import Gelf.Proofs.Decimal.Scaled
import Gelf.Proofs.Json.RoundTrip

/-!
# Reading floats back

A float is printed as the shortest decimal that rounds to it, but it is not read by rounding that
decimal: the digits are rounded first, and the result is rounded again after scaling. Few digits are
not rounded at the first time, so they are read as the float. All the digits of a float of ordinary
size may be read as a neighbour of it.
-/

namespace Gelf.Json

open Float.Model (UnpackedFloat)
open Float.Model.UnpackedFloat (Sign)
open Rounding (RoundsTo)

/-- The parts of a float as it is printed. -/
def Numeral.ofFloat (x : Float) : Numeral := ofDecimal (Decimal.ofFloat numerals.tie x)

/-- A float holds the digits, and a float is the power of ten that scales them. -/
def Numeral.IsShort (n : Numeral) : Prop := n.significand ≤ 2 ^ 53 ∧ n.power.natAbs ≤ 22

instance (n : Numeral) : Decidable n.IsShort := inferInstanceAs (Decidable (_ ∧ _))

variable {x y : FiniteFloat} {m : Nat} {q : Int} {hpos : 0 < m}

theorem isNegative_of_unpack (hx : x.val.toModel.unpack = .finite .positive m q hpos) :
    isNegative x.val = false := by
  have hbits := (Rounding.toNat_toBits hx).1
  have hbounds := Rounding.unpack_finite_bounds hx
  have hlt : x.val.toBits.toNat < 2 ^ 63 := by omega
  have hand : x.val.toBits &&& 0x8000000000000000 = 0 := by
    apply UInt64.toNat_inj.1
    rw [UInt64.toNat_and]
    show x.val.toBits.toNat &&& 2 ^ 63 = 0
    rw [Nat.and_two_pow, Nat.testBit_lt_two_pow hlt]
    rfl
  rw [isNegative, hand]
  rfl

theorem significand_ofFloat_ne_zero {x : Float}
    (hx : x.toModel.unpack = .finite .positive m q hpos) : (Numeral.ofFloat x).significand ≠ 0 := by
  have hcoefficient := Decimal.coefficient_ofFloat_ne_zero numerals.tie hx
  rcases Numeral.parts_ofDecimal (Decimal.ofFloat numerals.tie x) with
    ⟨heq, -⟩ | ⟨k, -, heq, -⟩ <;> rw [Numeral.ofFloat, heq]
  · exact hcoefficient
  · exact Nat.mul_ne_zero hcoefficient (Nat.pow_pos (by decide)).ne'

/-! ### What is scaled -/

namespace ReadsBack

theorem assemble_eq (h : ReadsBack x y) :
    assemble (isNegative x.val) (octets (Numeral.ofFloat x.val).whole)
      ((Numeral.ofFloat x.val).fraction.map octets) (Numeral.ofFloat x.val).exponent =
        .ok (.real y) := by
  have hwell : (Numeral.ofFloat x.val).WellFormed :=
    Numeral.wellFormed_ofDecimal Decimal.exponent_of_coefficient_eq_zero
  have hends : Ends [] := fun b hb => by cases hb
  have hnumber := Numeral.number_octets hwell (isNegative x.val) hends
  rw [Numeral.ofFloat, Numeral.chars_ofDecimal, h.2 [] hends] at hnumber
  rw [Numeral.ofFloat]
  cases hassemble : assemble (isNegative x.val) (octets (Numeral.ofDecimal _).whole) _ _ with
  | error e =>
    rw [hassemble] at hnumber
    cases hnumber
  | ok a =>
    rw [hassemble] at hnumber
    cases hnumber
    rfl

theorem scale_eq (h : ReadsBack x y) (hsize : (Numeral.ofFloat x.val).significand < 2 ^ 64) :
    scale (isNegative x.val) (Numeral.ofFloat x.val).significand (Numeral.ofFloat x.val).power =
      .ok (.real y) := by
  rw [← h.assemble_eq]
  exact (Numeral.assemble_of_lt
    (Numeral.wellFormed_ofDecimal Decimal.exponent_of_coefficient_eq_zero) _
    (Numeral.ofDecimal_shape _).1 hsize).symm

/-- What is read was rounded from a number that is close to the decimal, and is the decimal if a
float holds its digits. -/
theorem exists_roundsTo (h : ReadsBack x y)
    (hx : x.val.toModel.unpack = .finite .positive m q hpos)
    (hsize : (Numeral.ofFloat x.val).significand < 2 ^ 64)
    (hpower : (Numeral.ofFloat x.val).power.natAbs ≤ 22) :
    let d := (Decimal.ofFloat numerals.tie x.val).value
    ∃ (v : ℚ) (p : Int) (r : Nat), RoundsTo v y.val p r ∧ |v - d| ≤ d / 2 ^ 53 ∧
      ((Numeral.ofFloat x.val).significand ≤ 2 ^ 53 → v = d) := by
  intro d
  have hd : d = (Numeral.ofFloat x.val).significand * 10 ^ (Numeral.ofFloat x.val).power :=
    (Numeral.value_ofDecimal _).symm
  have hne := significand_ofFloat_ne_zero hx
  have hscale := h.scale_eq hsize
  rw [isNegative_of_unpack hx] at hscale
  obtain ⟨y', v, p, r, hscale', hrounds, hoff, hexact⟩ := exists_scale_roundsTo hne hsize hpower
  rw [hscale] at hscale'
  cases hscale'
  rw [← hd] at hoff hexact
  exact ⟨v, p, r, hrounds, hoff, hexact⟩

end ReadsBack

/-! ### Few digits -/

/-- A float whose decimal has a small power of ten is not very small. -/
theorem lt_of_power {x : Float} (hx : x.toModel.unpack = .finite .positive m q hpos)
    (hpower : (Numeral.ofFloat x).power.natAbs ≤ 22) : -127 < q := by
  have hvalue := Decimal.value_ofFloat_lt numerals.tie hx
  have hone : (1 : ℚ) ≤ (Numeral.ofFloat x).significand := by
    exact_mod_cast Nat.one_le_iff_ne_zero.2 (significand_ofFloat_ne_zero hx)
  rw [← Numeral.value_ofDecimal, Numeral.value_eq] at hvalue
  have hlt : (2 : ℚ) ^ (-74 : Int) < 2 ^ (54 + (q - 1)) := calc
    (2 : ℚ) ^ (-74 : Int) < 10 ^ (-22 : Int) := by norm_num
    _ ≤ 10 ^ (Numeral.ofFloat x).power := zpow_le_zpow_right₀ (by norm_num) (by omega)
    _ ≤ (Numeral.ofFloat x).significand * 10 ^ (Numeral.ofFloat x).power :=
      le_mul_of_one_le_left (zpow_pos (by norm_num) _).le hone
    _ < 2 ^ 54 * 2 ^ (q - 1) := hvalue
    _ = 2 ^ (54 + (q - 1)) := by
      rw [zpow_add₀ (by norm_num)]
      norm_num
  have hlt' := (zpow_lt_zpow_iff_right₀ (by norm_num : (1 : ℚ) < 2)).1 hlt
  omega

theorem ReadsBack.eq_of_positive (h : ReadsBack x y)
    (hx : x.val.toModel.unpack = .finite .positive m q hpos)
    (hshort : (Numeral.ofFloat x.val).IsShort) : y.val = x.val := by
  have hq := lt_of_power hx hshort.2
  have hsize : (Numeral.ofFloat x.val).significand < 2 ^ 64 := hshort.1.trans_lt (by decide)
  obtain ⟨v, p, r, hrounds, -, hexact⟩ := h.exists_roundsTo hx hsize hshort.2
  rw [hexact hshort.1] at hrounds
  exact Decimal.eq_of_roundsTo_ofFloat hx (by omega) hrounds

/-- The two zeros are read as they are. -/
theorem ReadsBack.eq_of_zero (h : ReadsBack x y) {s : Sign} (hx : x.val.toModel.unpack = .zero s) :
    y.val = x.val := by
  obtain ⟨x, hfinite⟩ := x
  have hsign : x = 0 ∨ x = -0 := by
    rcases Rounding.toNat_toBits_of_zero hx with hbits | hbits
    · exact .inl (Rounding.eq_of_toBits_eq (UInt64.toNat_inj.1 hbits))
    · exact .inr (Rounding.eq_of_toBits_eq (UInt64.toNat_inj.1 hbits))
  rcases hsign with rfl | rfl
  · have hsize : (Numeral.ofFloat 0).significand < 2 ^ 64 := by decide +kernel
    have hread : scale (isNegative 0) (Numeral.ofFloat 0).significand (Numeral.ofFloat 0).power =
        .ok (.real ⟨0, isFinite_zero⟩) := rfl
    cases hread.symm.trans (h.scale_eq hsize)
    rfl
  · have hsize : (Numeral.ofFloat (-0)).significand < 2 ^ 64 := by decide +kernel
    have hread : scale (isNegative (-0)) (Numeral.ofFloat (-0)).significand
        (Numeral.ofFloat (-0)).power = .ok (.real ⟨-0, isFinite_neg isFinite_zero⟩) := rfl
    cases hread.symm.trans (h.scale_eq hsize)
    rfl

/-- **Few digits.** A float that is written with few digits is read as itself. -/
theorem ReadsBack.eq_of_isShort (h : ReadsBack x y) (hx : 0 ≤ x.val)
    (hshort : (Numeral.ofFloat x.val).IsShort) : y.val = x.val := by
  have hzero : (0 : Float).toModel.unpack = .zero .positive := rfl
  have hle : (0 : Float).toModel.unpack.le x.val.toModel.unpack = true := of_decide_eq_true hx
  rcases Rounding.unpack_of_isFinite x.isFinite with ⟨s, hunpack⟩ | ⟨s, m, q, hpos, hunpack, -⟩
  · exact h.eq_of_zero hunpack
  · rw [hzero, hunpack] at hle
    cases s with
    | negative => cases hle
    | positive => exact h.eq_of_positive hunpack hshort

/-! ### Floats of ordinary size -/

theorem exists_unpack_of_mem {x : Float} (hlow : 1e-5 ≤ x) (hhigh : x < 1e22) :
    ∃ m q hpos, x.toModel.unpack = .finite .positive m q hpos ∧ -69 ≤ q ∧ q ≤ 21 := by
  have hleast : (1e-5 : Float).toModel.unpack =
      .finite .positive 5902958103587057 (-69) (by decide) := rfl
  have hgreatest : (1e22 : Float).toModel.unpack =
      .finite .positive 4768371582031250 21 (by decide) := rfl
  have hlow' : (1e-5 : Float).toModel.unpack.le x.toModel.unpack = true :=
    of_decide_eq_true hlow
  have hhigh' : x.toModel.unpack.lt (1e22 : Float).toModel.unpack = true :=
    of_decide_eq_true hhigh
  rw [hleast] at hlow'
  rw [hgreatest] at hhigh'
  cases hx : x.toModel.unpack with
  | infinity s =>
    rw [hx] at hlow' hhigh'
    cases s with
    | negative => cases hlow'
    | positive => cases hhigh'
  | notANumber =>
    rw [hx] at hlow'
    cases hlow'
  | zero s =>
    rw [hx] at hlow'
    cases hlow'
  | finite s m q hpos =>
    rw [hx] at hlow' hhigh'
    cases s with
    | negative => cases hlow'
    | positive =>
      refine ⟨m, q, hpos, rfl, ?_, ?_⟩
      · by_contra hlt
        have hcompare : compare (-69) q = .gt := compare_gt_iff_gt.2 (by omega)
        simp only [UnpackedFloat.le, UnpackedFloat.compare, hcompare] at hlow'
        cases hlow'
      · by_contra hlt
        have hcompare : compare q 21 = .gt := compare_gt_iff_gt.2 (by omega)
        simp only [UnpackedFloat.lt, UnpackedFloat.compare, hcompare] at hhigh'
        cases hhigh'

theorem Numeral.bounds_ofFloat {x : Float} (hx : x.toModel.unpack = .finite .positive m q hpos)
    (hlow : -69 ≤ q) (hhigh : q ≤ 21) :
    (ofFloat x).significand < 2 ^ 64 ∧ (ofFloat x).power.natAbs ≤ 22 := by
  obtain ⟨hcoefficient, hexponent⟩ := Decimal.ofFloat_bounds numerals.tie hx hlow hhigh
  rcases parts_ofDecimal (Decimal.ofFloat numerals.tie x) with
    ⟨hsignificand, hpower⟩ | ⟨k, -, -, hpower, hlt⟩
  · rw [ofFloat, hsignificand, hpower]
    exact ⟨hcoefficient, hexponent⟩
  · rw [ofFloat, hpower]
    exact ⟨hlt.trans (by decide), by decide⟩

/-- **All digits.** A float of ordinary size is read as itself or as a neighbour. -/
theorem ReadsBack.near (h : ReadsBack x y) (hlow : 1e-5 ≤ x.val) (hhigh : x.val < 1e22) :
    y.val.toBits.toNat ≤ x.val.toBits.toNat + 1 ∧ x.val.toBits.toNat ≤ y.val.toBits.toNat + 1 := by
  obtain ⟨m, q, hpos, hx, hqlow, hqhigh⟩ := exists_unpack_of_mem hlow hhigh
  obtain ⟨hsize, hpower⟩ := Numeral.bounds_ofFloat hx hqlow hqhigh
  obtain ⟨v, p, r, hrounds, hoff, -⟩ := h.exists_roundsTo hx hsize hpower
  obtain ⟨hnearest, hedge⟩ := Decimal.isNearest_ofFloat numerals.tie hx (by omega)
  exact Rounding.toBits_near_of_isNearest (Rounding.isNormal_of_unpack hx (by omega)) hrounds
    hnearest hedge hoff

end Gelf.Json
