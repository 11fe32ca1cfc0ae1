import Gelf.Decimal.Notation
import Gelf.Proofs.Decimal.Scaling

/-!
# The size of shortest decimals

A shortest decimal lies in the interval of its float, so it is at most half a step above the float.
That is small enough for reading, except at the very end of the range of floats.
-/

namespace Gelf.Decimal

def value (d : Decimal) : ℚ := d.coefficient * 10 ^ d.exponent

namespace Interval

def top (i : Interval) : ℚ := i.upper * 2 ^ i.exponent

variable {i : Interval} {tie : Tie}

/-- Whichever neighbour of the centre is taken, it was found inside before. -/
theorem inside_of_eq_some {inside : Nat → Bool} {below past unit k : Nat}
    (h : (if inside below then
        if inside (below + 1) then
          if past < unit then some below
          else if unit < past then some (below + 1)
          else match tie with
            | .even => some (below + below % 2)
            | .up => some (below + 1)
        else some below
      else if inside (below + 1) then some (below + 1)
      else none) = some k) : inside k = true := by
  have hparity := Nat.mod_two_eq_zero_or_one below
  by_cases hbelow : inside below = true <;> by_cases habove : inside (below + 1) = true
  · simp only [hbelow, habove, ↓reduceIte] at h
    split at h
    · cases h
      exact hbelow
    · split at h
      · cases h
        exact habove
      · cases tie with
        | even =>
          cases h
          rcases hparity with hp | hp <;> rw [hp] <;> assumption
        | up =>
          cases h
          exact habove
  · simp only [hbelow, habove, ↓reduceIte, Bool.false_eq_true, Option.some.injEq] at h
    exact h ▸ hbelow
  · simp only [hbelow, habove, ↓reduceIte, Bool.false_eq_true, Option.some.injEq] at h
    exact h ▸ habove
  · simp only [hbelow, habove, ↓reduceIte, Bool.false_eq_true, reduceCtorEq] at h

theorem zpow_mul_pow {b : ℚ} (hb : b ≠ 0) (n : Int) : b ^ n * b ^ (-n).toNat = b ^ n.toNat := by
  rw [← zpow_natCast, ← zpow_natCast, ← zpow_add₀ hb]
  congr 1
  omega

/-- Multiples of a power of ten and of a power of two, in a common unit that makes both whole. -/
theorem cast_common (grid e : Int) (k n : Nat) :
    ((k * (10 ^ grid.toNat * 2 ^ (-e).toNat) : Nat) : ℚ) =
        k * 10 ^ grid * (10 ^ (-grid).toNat * 2 ^ (-e).toNat) ∧
      ((n * (2 ^ e.toNat * 10 ^ (-grid).toNat) : Nat) : ℚ) =
        n * 2 ^ e * (10 ^ (-grid).toNat * 2 ^ (-e).toNat) := by
  have hten := zpow_mul_pow (b := 10) (by norm_num) grid
  have htwo := zpow_mul_pow (b := 2) (by norm_num) e
  push_cast
  rw [← hten, ← htwo]
  exact ⟨by ring, by ring⟩

theorem le_common_iff (grid e : Int) (k n : Nat) :
    k * (10 ^ grid.toNat * 2 ^ (-e).toNat) ≤ n * (2 ^ e.toNat * 10 ^ (-grid).toNat) ↔
      (k : ℚ) * 10 ^ grid ≤ n * 2 ^ e := by
  obtain ⟨hk, hn⟩ := cast_common grid e k n
  rw [← Nat.cast_le (α := ℚ), hk, hn]
  exact mul_le_mul_iff_left₀ (by positivity)

theorem common_le_iff (grid e : Int) (k n : Nat) :
    n * (2 ^ e.toNat * 10 ^ (-grid).toNat) ≤ k * (10 ^ grid.toNat * 2 ^ (-e).toNat) ↔
      (n : ℚ) * 2 ^ e ≤ k * 10 ^ grid := by
  obtain ⟨hk, hn⟩ := cast_common grid e k n
  rw [← Nat.cast_le (α := ℚ), hk, hn]
  exact mul_le_mul_iff_left₀ (by positivity)

/-- The reals that round to a float, with the ends of their interval when it is closed. -/
structure Contains (i : Interval) (v : ℚ) : Prop where
  lower_le : i.lower * 2 ^ i.exponent ≤ v
  le_top : v ≤ i.top
  closed_of_end : v = i.lower * 2 ^ i.exponent ∨ v = i.top → i.closed = true

/-- A multiple that is found on a grid is one of the reals. -/
theorem contains_of_onGrid? {grid : Int} {k : Nat} (h : i.onGrid? tie grid = some k) :
    i.Contains (value ⟨k, grid⟩) := by
  let unit := 10 ^ grid.toNat * 2 ^ (-i.exponent).toNat
  let scale := 2 ^ i.exponent.toNat * 10 ^ (-grid).toNat
  let inside (k : Nat) : Bool :=
    if i.closed then i.lower * scale ≤ k * unit && k * unit ≤ i.upper * scale
    else i.lower * scale < k * unit && k * unit < i.upper * scale
  have hk : inside k = true := inside_of_eq_some h
  have hlower := common_le_iff grid i.exponent k i.lower
  have hupper := le_common_iff grid i.exponent k i.upper
  simp only [inside] at hk
  split at hk <;> simp only [Bool.and_eq_true, decide_eq_true_eq] at hk
  · rename_i hclosed
    exact ⟨hlower.1 hk.1, hupper.1 hk.2, fun _ => hclosed⟩
  · refine ⟨hlower.1 hk.1.le, hupper.1 hk.2.le, ?_⟩
    rintro (hend | hend)
    · exact absurd ((le_common_iff grid i.exponent k i.lower).2 hend.le) (not_le.2 hk.1)
    · exact absurd ((common_le_iff grid i.exponent k i.upper).2 hend.ge) (not_le.2 hk.2)

theorem value_exact (i : Interval) :
    value { coefficient := i.centre * 2 ^ i.exponent.toNat * 5 ^ (-i.exponent).toNat
            exponent := if i.exponent < 0 then i.exponent else 0 } = i.centre * 2 ^ i.exponent := by
  rw [value]
  push_cast
  by_cases hneg : i.exponent < 0
  · obtain ⟨n, hn⟩ : ∃ n : Nat, i.exponent = -n := ⟨(-i.exponent).toNat, by omega⟩
    have hten : (10 : ℚ) ^ n = 2 ^ n * 5 ^ n := by rw [← mul_pow]; norm_num
    rw [if_pos hneg, hn, Int.toNat_neg_natCast, neg_neg, Int.toNat_natCast, zpow_neg, zpow_neg,
      zpow_natCast, zpow_natCast, hten]
    field_simp
  · obtain ⟨n, hn⟩ : ∃ n : Nat, i.exponent = n := ⟨i.exponent.toNat, by omega⟩
    rw [if_neg hneg, hn, Int.toNat_neg_natCast, Int.toNat_natCast, zpow_natCast]
    ring

/-- What is strictly inside of an interval may be the centre, which is the last resort. -/
theorem contains_shortest (hlower : i.lower < i.centre) (hupper : i.centre < i.upper) (steps : Nat)
    (grid : Int) : i.Contains (i.shortest tie steps grid).value := by
  induction steps generalizing grid with
  | zero =>
    have hpow : (0 : ℚ) < 2 ^ i.exponent := zpow_pos (by norm_num) _
    have hlower' : (i.lower : ℚ) * 2 ^ i.exponent < i.centre * 2 ^ i.exponent :=
      mul_lt_mul_of_pos_right (by exact_mod_cast hlower) hpow
    have hupper' : (i.centre : ℚ) * 2 ^ i.exponent < i.top :=
      mul_lt_mul_of_pos_right (by exact_mod_cast hupper) hpow
    simp only [shortest, Nat.pow_eq]
    rw [value_exact]
    refine ⟨hlower'.le, hupper'.le, ?_⟩
    rintro (hend | hend)
    · exact absurd hend hlower'.ne'
    · exact absurd hend hupper'.ne
  | succ steps ih =>
    rw [shortest]
    split
    · rename_i k hk
      exact contains_of_onGrid? hk
    · exact ih _

theorem Contains.coefficient_ne_zero {d : Decimal} (h : i.Contains d.value) (hlower : 0 < i.lower) :
    d.coefficient ≠ 0 := by
  intro hzero
  have hpos : (0 : ℚ) < i.lower * 2 ^ i.exponent := by positivity
  have hle := h.lower_le
  rw [value, hzero, Nat.cast_zero, zero_mul] at hle
  exact absurd hpos (not_lt.2 hle)

theorem lower_ofFloat_mem {x : Float} (h : (ofFloat x).centre ≠ 0) :
    0 < (ofFloat x).lower ∧ (ofFloat x).lower < (ofFloat x).centre := by
  simp only [ofFloat] at h ⊢
  split <;> omega

theorem centre_lt_upper_ofFloat (x : Float) : (ofFloat x).centre < (ofFloat x).upper :=
  Nat.lt_add_of_pos_right (by decide)

/-! ### The end of the range -/

/-- The interval of a float that is among the eight greatest, the smallest of them first. -/
def nearEnd (j : Nat) : Interval where
  lower := 4 * (2 ^ 53 - 8 + j) - 2
  centre := 4 * (2 ^ 53 - 8 + j)
  upper := 4 * (2 ^ 53 - 8 + j) + 2
  exponent := 969
  closed := (2 ^ 53 - 8 + j) % 2 = 0

theorem toNat_exponent_le {x : Float} (hx : x.isFinite = true) :
    x.toBits.toNat / 0x10000000000000 % 0x800 ≤ 2046 := by
  have hfinite := (Rounding.isFinite_unpack_iff x.toBits.toBitVec).1 hx
  exact (Rounding.toNat_unpackExponent _).symm ▸ Rounding.toNat_unpackExponent_le hfinite

theorem top_ofFloat_le {x : Float} (hx : x.isFinite = true) :
    (ofFloat x).top ≤ Json.safeBound ∨ ∃ j < 8, ofFloat x = nearEnd j := by
  have hbiased := toNat_exponent_le hx
  have hfraction : x.toBits.toNat % 0x10000000000000 < 2 ^ 52 := Nat.mod_lt _ (by decide)
  have hsafe : Json.safeBound = ((2 ^ 50 - 1) * 2 ^ 5 * 2 ^ (969 : Int) : ℚ) := by
    rw [Json.safeBound, mul_assoc]
    congr 1
    exact pow_add 2 5 969
  obtain ⟨fraction, hf⟩ : ∃ n, n = x.toBits.toNat % 0x10000000000000 := ⟨_, rfl⟩
  obtain ⟨biased, hb⟩ : ∃ n, n = x.toBits.toNat / 0x10000000000000 % 0x800 := ⟨_, rfl⟩
  rw [← hb] at hbiased
  rw [← hf] at hfraction
  rw [hsafe]
  by_cases hend : biased = 2046 ∧ 2 ^ 52 - 8 ≤ fraction
  · refine .inr ⟨fraction - (2 ^ 52 - 8), by omega, ?_⟩
    have hj : 2 ^ 53 - 8 + (fraction - (2 ^ 52 - 8)) = fraction + 0x10000000000000 := by omega
    have hne : fraction ≠ 0 := by omega
    simp only [ofFloat, nearEnd, ← hf, ← hb, hend.1, hj]
    simp [hne]
  · left
    obtain ⟨m, q, htop, hmq⟩ : ∃ (m : Nat) (q : Int), (ofFloat x).top = (4 * m + 2) * 2 ^ (q - 2) ∧
        (m < 2 ^ 53 ∧ q ≤ 970 ∨ m + 9 ≤ 2 ^ 53 ∧ q ≤ 971) := by
      refine ⟨if biased = 0 then fraction else fraction + 0x10000000000000,
        if biased = 0 then -1074 else (biased : Int) - 1075, ?_, ?_⟩
      · simp only [top, ofFloat, ← hf, ← hb]
        push_cast
        rfl
      · split <;> omega
    rw [htop]
    rcases hmq with ⟨hm, hq⟩ | ⟨hm, hq⟩
    · have hcast : (m : ℚ) + 1 ≤ 2 ^ 53 := by exact_mod_cast hm
      calc (4 * m + 2 : ℚ) * 2 ^ (q - 2) ≤ 2 ^ 55 * 2 ^ (968 : Int) := by
            gcongr
            · linarith
            · norm_num
            · omega
        _ = 2 ^ 54 * 2 ^ (969 : Int) := by
            rw [show (969 : Int) = 1 + 968 by rfl, zpow_add₀ (by norm_num) 1, zpow_one]
            ring
        _ ≤ (2 ^ 50 - 1) * 2 ^ 5 * 2 ^ (969 : Int) := by gcongr; norm_num
    · have hcast : (m : ℚ) + 9 ≤ 2 ^ 53 := by exact_mod_cast hm
      gcongr
      · linarith
      · norm_num
      · omega

end Interval

theorem ofFloat_of_zero (tie : Tie) {x : Float} (h : (Interval.ofFloat x).centre = 0) :
    ofFloat tie x = ⟨0, 0⟩ := if_pos h

theorem ofFloat_of_ne_zero (tie : Tie) {x : Float} (h : (Interval.ofFloat x).centre ≠ 0) :
    ofFloat tie x = (Interval.ofFloat x).shortest tie 40
      (((Interval.ofFloat x).exponent + 55) * 30103 / 100000 + 2) := if_neg h

/-- A shortest decimal rounds to its float. -/
theorem contains_ofFloat (tie : Tie) {x : Float} (h : (Interval.ofFloat x).centre ≠ 0) :
    (Interval.ofFloat x).Contains (ofFloat tie x).value := by
  rw [ofFloat_of_ne_zero tie h]
  exact Interval.contains_shortest (Interval.lower_ofFloat_mem h).2
    (Interval.centre_lt_upper_ofFloat x) _ _

theorem exponent_of_coefficient_eq_zero {tie : Tie} {x : Float}
    (h : (ofFloat tie x).coefficient = 0) : (ofFloat tie x).exponent = 0 := by
  by_cases hcentre : (Interval.ofFloat x).centre = 0
  · rw [ofFloat_of_zero tie hcentre]
  · exact absurd h ((contains_ofFloat tie hcentre).coefficient_ne_zero
      (Interval.lower_ofFloat_mem hcentre).1)

/-- A shortest decimal is small enough to be read back, unless it is one of the eight greatest. -/
theorem value_ofFloat_le (tie : Tie) {x : Float} (hx : x.isFinite = true) :
    (ofFloat tie x).value ≤ Json.safeBound ∨
      ∃ j < 8, ofFloat tie x =
        (Interval.nearEnd j).shortest tie 40 ((969 + 55) * 30103 / 100000 + 2) := by
  by_cases hcentre : (Interval.ofFloat x).centre = 0
  · left
    rw [ofFloat_of_zero tie hcentre, value]
    norm_num
    exact Json.safeBound_nonneg
  · rcases Interval.top_ofFloat_le hx with hle | ⟨j, hj, heq⟩
    · exact .inl ((contains_ofFloat tie hcentre).le_top.trans hle)
    · refine .inr ⟨j, hj, ?_⟩
      rw [ofFloat_of_ne_zero tie hcentre, heq]
      rfl

end Gelf.Decimal
