import Gelf.Proofs.Decimal.Bounds
import Gelf.Proofs.Decimal.Nearest

/-!
# The digits of shortest decimals

The interval of a float is as wide as the step to the next float. A grid that is no coarser than
half a step has a multiple in it, so the search for a shortest decimal ends there at the latest. For
floats of ordinary size this keeps the decimal to a few digits and its exponent small.
-/

namespace Gelf.Decimal

open Rounding (IsNearest IsNormal RoundsTo)

namespace Interval

variable {i : Interval} {tie : Tie}

/-! ### The reals around a float -/

theorem ofFloat_of_unpack {x : Float} {m : Nat} {q : Int} {hpos : 0 < m}
    (h : x.toModel.unpack = .finite .positive m q hpos) :
    Interval.ofFloat x =
      { lower := if m = 2 ^ 52 ∧ -1074 < q then 4 * m - 1 else 4 * m - 2
        centre := 4 * m
        upper := 4 * m + 2
        exponent := q - 2
        closed := decide (m % 2 = 0) } := by
  obtain ⟨hbits, hlow, hcases⟩ := Rounding.toNat_toBits h
  obtain ⟨hm, hhigh⟩ := Rounding.unpack_finite_bounds h
  obtain ⟨k, rfl⟩ : ∃ k : Nat, q = k - 1074 := ⟨(q + 1074).toNat, by omega⟩
  by_cases hnormal : 2 ^ 52 ≤ m
  · have hfraction : x.toBits.toNat % 0x10000000000000 = m - 2 ^ 52 := by omega
    have hbiased : x.toBits.toNat / 0x10000000000000 % 0x800 = k + 1 := by omega
    have hfirst : m - 2 ^ 52 = 0 ∧ 1 < k + 1 ↔ m = 2 ^ 52 ∧ -1074 < (k : Int) - 1074 := by omega
    have hmantissa : m - 2 ^ 52 + 0x10000000000000 = m := by omega
    have hexponent : ((k + 1 : Nat) : Int) - 1075 - 2 = (k : Int) - 1074 - 2 := by omega
    simp only [ofFloat, hfraction, hbiased, hfirst, Nat.succ_ne_zero, ↓reduceIte, hmantissa,
      hexponent]
  · have hk : k = 0 := by omega
    have hfraction : x.toBits.toNat % 0x10000000000000 = m := by omega
    have hbiased : x.toBits.toNat / 0x10000000000000 % 0x800 = 0 := by omega
    simp only [ofFloat, hfraction, hbiased, hk, ↓reduceIte]
    simp

/-- The float is the nearest one to each of the reals in its interval. Below a power of two they end
halfway, since the floats are twice as dense there. -/
theorem Contains.isNearest {x : Float} {m : Nat} {q : Int} {v : ℚ}
    (h : (Interval.ofFloat x).Contains v) (hx : IsNormal x m q) (hq : -1074 < q) :
    IsNearest (v / 2 ^ q) m ∧ (m = 2 ^ 52 → 2 ^ 52 - 1 / 4 ≤ v / 2 ^ q) := by
  obtain ⟨hm, -⟩ := hx.bounds
  have hpow : (0 : ℚ) < 2 ^ q := zpow_pos (by norm_num) q
  have hunit (n : Nat) : (n : ℚ) * 2 ^ (q - 2) = n / 4 * 2 ^ q := by
    rw [zpow_sub₀ (by norm_num)]
    norm_num
    ring
  obtain ⟨w, rfl⟩ : ∃ w, v = w * 2 ^ q := ⟨v / 2 ^ q, by field_simp⟩
  obtain ⟨-, hpos, hunpack⟩ := hx
  rw [ofFloat_of_unpack hunpack] at h
  obtain ⟨hlower, hupper, hend⟩ := h
  simp only [top, hunit, mul_le_mul_iff_left₀ hpow, mul_left_inj' hpow.ne', decide_eq_true_eq]
    at hlower hupper hend
  rw [mul_div_cancel_right₀ w hpow.ne']
  by_cases hfirst : m = 2 ^ 52
  · rw [if_pos ⟨hfirst, hq⟩] at hlower
    subst hfirst
    norm_num at hlower hupper ⊢
    exact ⟨⟨by norm_num; linarith, by norm_num; linarith, fun _ => rfl⟩, hlower⟩
  · rw [if_neg fun hpower => hfirst hpower.1] at hlower hend
    have hcast : ((4 * m - 2 : Nat) : ℚ) / 4 = m - 1 / 2 := by
      rw [Nat.cast_sub (by omega)]
      push_cast
      ring
    have hcast' : ((4 * m + 2 : Nat) : ℚ) / 4 = m + 1 / 2 := by
      push_cast
      ring
    rw [hcast] at hlower hend
    rw [hcast'] at hupper hend
    exact ⟨⟨hlower, hupper, hend⟩, fun hpower => absurd hpower hfirst⟩

/-! ### Hits -/

theorem exists_eq_some_of_inside {inside : Nat → Bool} {below past unit : Nat}
    (h : inside below = true ∨ inside (below + 1) = true) :
    ∃ k, (if inside below then
        if inside (below + 1) then
          if past < unit then some below
          else if unit < past then some (below + 1)
          else match tie with
            | .even => some (below + below % 2)
            | .up => some (below + 1)
        else some below
      else if inside (below + 1) then some (below + 1)
      else none) = some k := by
  by_cases hbelow : inside below = true
  · rw [if_pos hbelow]
    split
    · split
      · exact ⟨_, rfl⟩
      · split
        · exact ⟨_, rfl⟩
        · cases tie with
          | even => exact ⟨_, rfl⟩
          | up => exact ⟨_, rfl⟩
    · exact ⟨_, rfl⟩
  · rw [if_neg hbelow, if_pos (h.resolve_left hbelow)]
    exact ⟨_, rfl⟩

/-- The multiple above the centre is inside of an interval that reaches one step up, unless the
centre is a multiple itself. -/
theorem exists_onGrid? (hlower : i.lower < i.centre) (hupper : i.centre + 2 ≤ i.upper) {grid : Int}
    (hgrid : (10 : ℚ) ^ grid ≤ 2 * 2 ^ i.exponent) : ∃ k, i.onGrid? tie grid = some k := by
  let unit := 10 ^ grid.toNat * 2 ^ (-i.exponent).toNat
  let scale := 2 ^ i.exponent.toNat * 10 ^ (-grid).toNat
  let below := i.centre * scale / unit
  let inside (k : Nat) : Bool :=
    if i.closed then i.lower * scale ≤ k * unit && k * unit ≤ i.upper * scale
    else i.lower * scale < k * unit && k * unit < i.upper * scale
  suffices hinside : inside below = true ∨ inside (below + 1) = true from
    exists_eq_some_of_inside hinside
  have hstrict (k : Nat) (hlow : i.lower * scale < k * unit) (hhigh : k * unit < i.upper * scale) :
      inside k = true := by
    simp only [inside]
    split <;> simp only [Bool.and_eq_true, decide_eq_true_eq]
    · exact ⟨hlow.le, hhigh.le⟩
    · exact ⟨hlow, hhigh⟩
  have hunit : 1 * unit ≤ 2 * scale := (le_common_iff grid i.exponent 1 2).2 (by simpa using hgrid)
  have hscale : 0 < scale := by positivity
  have hpos : 0 < unit := by positivity
  have hbelow : below * unit + i.centre * scale % unit = i.centre * scale := Nat.div_add_mod' _ _
  have hrest : i.centre * scale % unit < unit := Nat.mod_lt _ hpos
  have hlower' : i.lower * scale < i.centre * scale := Nat.mul_lt_mul_of_pos_right hlower hscale
  have hupper' : i.centre * scale + 2 * scale ≤ i.upper * scale := by
    rw [← Nat.add_mul]
    exact Nat.mul_le_mul_right scale hupper
  by_cases hwhole : i.centre * scale % unit = 0
  · exact .inl (hstrict below (by omega) (by omega))
  · have hnext : (below + 1) * unit = below * unit + unit := Nat.succ_mul below unit
    exact .inr (hstrict (below + 1) (by omega) (by omega))

/-- The search ends at a grid with a hit, or before. -/
theorem le_exponent_shortest {hit : Int} (h : ∃ k, i.onGrid? tie hit = some k) {steps : Nat}
    {grid : Int} (hle : hit ≤ grid) (hsteps : grid < hit + steps) :
    hit ≤ (i.shortest tie steps grid).exponent := by
  induction steps generalizing grid with
  | zero => omega
  | succ steps ih =>
    rw [shortest]
    split
    · exact hle
    · rename_i hnone
      have hne : hit ≠ grid := by
        rintro rfl
        obtain ⟨k, hk⟩ := h
        rw [hk] at hnone
        cases hnone
      exact ih (by omega) (by omega)

end Interval

/-! ### Floats of ordinary size -/

/-- The greatest power of ten that is not above a power of two. -/
theorem ten_pow_le_two_pow {e : Int} (hlow : -70 ≤ e) (hhigh : e ≤ 20) :
    (10 : ℚ) ^ (e * 30103 / 100000) ≤ 2 ^ e ∧ (2 : ℚ) ^ e < 10 ^ (e * 30103 / 100000 + 1) := by
  have hall : ∀ j < 91,
      let e : Int := (j : Nat) - 70
      let grid := e * 30103 / 100000
      1 * (10 ^ grid.toNat * 2 ^ (-e).toNat) ≤ 1 * (2 ^ e.toNat * 10 ^ (-grid).toNat) ∧
        ¬1 * (10 ^ (grid + 1).toNat * 2 ^ (-e).toNat) ≤
          1 * (2 ^ e.toNat * 10 ^ (-(grid + 1)).toNat) := by
    decide +kernel
  obtain ⟨j, rfl⟩ : ∃ j : Nat, e = j - 70 := ⟨(e + 70).toNat, by omega⟩
  have hj := hall j (by omega)
  simp only [Interval.le_common_iff] at hj
  simpa using hj

variable {x : Float} {m : Nat} {q : Int} {hpos : 0 < m}

theorem centre_ne_zero_of_unpack (hx : x.toModel.unpack = .finite .positive m q hpos) :
    (Interval.ofFloat x).centre ≠ 0 := by
  rw [Interval.ofFloat_of_unpack hx]
  dsimp only
  omega

theorem isNearest_ofFloat (tie : Tie) (hx : x.toModel.unpack = .finite .positive m q hpos)
    (hq : -1074 < q) :
    IsNearest ((ofFloat tie x).value / 2 ^ q) m ∧
      (m = 2 ^ 52 → 2 ^ 52 - 1 / 4 ≤ (ofFloat tie x).value / 2 ^ q) :=
  (contains_ofFloat tie (centre_ne_zero_of_unpack hx)).isNearest
    (Rounding.isNormal_of_unpack hx hq) hq

/-- **Shortest decimals.** What rounds the decimal of a float once finds the float. -/
theorem eq_of_roundsTo_ofFloat {tie : Tie} (hx : x.toModel.unpack = .finite .positive m q hpos)
    (hq : -1074 < q) {y : Float} {p : Int} {r : Nat}
    (h : RoundsTo (ofFloat tie x).value y p r) : y = x := by
  obtain ⟨hnearest, hedge⟩ := isNearest_ofFloat tie hx hq
  exact Rounding.eq_of_toBits_eq
    (Rounding.toBits_eq_of_isNearest (Rounding.isNormal_of_unpack hx hq) h hnearest hedge)

theorem value_ofFloat_lt (tie : Tie) (hx : x.toModel.unpack = .finite .positive m q hpos) :
    (ofFloat tie x).value < 2 ^ 54 * 2 ^ (q - 1) := by
  have htop := (contains_ofFloat tie (centre_ne_zero_of_unpack hx)).le_top
  have hm : ((4 * m + 2 : Nat) : ℚ) < 2 ^ 55 := by
    have hlt := (Rounding.unpack_finite_bounds hx).1
    exact_mod_cast (by omega : 4 * m + 2 < 2 ^ 55)
  rw [Interval.ofFloat_of_unpack hx] at htop
  calc (ofFloat tie x).value ≤ (4 * m + 2 : Nat) * 2 ^ (q - 2) := htop
    _ < 2 ^ 55 * 2 ^ (q - 2) := mul_lt_mul_of_pos_right hm (zpow_pos (by norm_num) _)
    _ = 2 ^ 54 * 2 ^ (q - 1) := by
      rw [show q - 1 = (q - 2) + 1 by ring, zpow_add₀ (by norm_num) (q - 2), zpow_one]
      ring

theorem coefficient_ofFloat_ne_zero (tie : Tie)
    (hx : x.toModel.unpack = .finite .positive m q hpos) : (ofFloat tie x).coefficient ≠ 0 :=
  (contains_ofFloat tie (centre_ne_zero_of_unpack hx)).coefficient_ne_zero
    (Interval.lower_ofFloat_mem (centre_ne_zero_of_unpack hx)).1

theorem le_exponent_ofFloat (tie : Tie) (hx : x.toModel.unpack = .finite .positive m q hpos)
    (hlow : -69 ≤ q) (hhigh : q ≤ 21) :
    (q - 1) * 30103 / 100000 ≤ (ofFloat tie x).exponent := by
  have hcentre := centre_ne_zero_of_unpack hx
  have hexponent : (Interval.ofFloat x).exponent = q - 2 := by
    rw [Interval.ofFloat_of_unpack hx]
  rw [ofFloat_of_ne_zero tie hcentre, hexponent]
  refine Interval.le_exponent_shortest ?_ (by omega) (by omega)
  refine Interval.exists_onGrid? (Interval.lower_ofFloat_mem hcentre).2 (Nat.le_refl _) ?_
  calc (10 : ℚ) ^ ((q - 1) * 30103 / 100000) ≤ 2 ^ (q - 1) :=
        (ten_pow_le_two_pow (by omega) (by omega)).1
    _ = 2 * 2 ^ (Interval.ofFloat x).exponent := by
      rw [hexponent, show q - 1 = (q - 2) + 1 by ring, zpow_add₀ (by norm_num) (q - 2), zpow_one,
        mul_comm]

/-- A float of ordinary size has a shortest decimal that fits in 64 bits, with a small exponent. -/
theorem ofFloat_bounds (tie : Tie) (hx : x.toModel.unpack = .finite .positive m q hpos)
    (hlow : -69 ≤ q) (hhigh : q ≤ 21) :
    (ofFloat tie x).coefficient < 2 ^ 64 ∧ (ofFloat tie x).exponent.natAbs ≤ 22 := by
  have hcoefficient := coefficient_ofFloat_ne_zero tie hx
  have hexponent := le_exponent_ofFloat tie hx hlow hhigh
  have hvalue := value_ofFloat_lt tie hx
  have hstep := (ten_pow_le_two_pow (e := q - 1) (by omega) (by omega)).2
  obtain ⟨d, hd⟩ : ∃ d, d = ofFloat tie x := ⟨_, rfl⟩
  rw [← hd] at hcoefficient hexponent hvalue ⊢
  have hpow : (0 : ℚ) < 10 ^ d.exponent := zpow_pos (by norm_num) _
  rw [value] at hvalue
  constructor
  · have hgrid : (10 : ℚ) ^ ((q - 1) * 30103 / 100000 + 1) ≤ 10 * 10 ^ d.exponent := by
      rw [zpow_add₀ (by norm_num), zpow_one, mul_comm]
      exact mul_le_mul_of_nonneg_left (zpow_le_zpow_right₀ (by norm_num) hexponent) (by norm_num)
    have hlt : (d.coefficient : ℚ) * 10 ^ d.exponent < 2 ^ 64 * 10 ^ d.exponent := by
      linarith
    exact_mod_cast lt_of_mul_lt_mul_right hlt hpow.le
  · have hone : (1 : ℚ) ≤ d.coefficient := by exact_mod_cast Nat.one_le_iff_ne_zero.2 hcoefficient
    have hlt : (10 : ℚ) ^ d.exponent < 10 ^ (23 : Int) := calc
      (10 : ℚ) ^ d.exponent ≤ d.coefficient * 10 ^ d.exponent := le_mul_of_one_le_left hpow.le hone
      _ < 2 ^ 54 * 2 ^ (q - 1) := hvalue
      _ ≤ 2 ^ 54 * 2 ^ (20 : Int) := by
        gcongr
        · norm_num
        · omega
      _ < 10 ^ (23 : Int) := by norm_num
    have hlt' := (zpow_lt_zpow_iff_right₀ (by norm_num : (1 : ℚ) < 10)).1 hlt
    omega

end Gelf.Decimal
