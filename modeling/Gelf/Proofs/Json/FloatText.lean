import Gelf.Decimal.Reading
import Gelf.Proofs.Decimal.Integers
import Gelf.Proofs.Json.Floats

/-!
# Reading floats from text

The reader of floats in text takes all digits together and scales them before it rounds. So it finds
each float of ordinary size in the text of the float, with as many digits as there are.
-/

namespace Gelf.Decimal

open Float.Model (Format UnpackedFloat)
open Float.Model.UnpackedFloat
open Json (powerOfTen)
open Rounding (RoundsTo)

/-! ### The nearest float -/

/-- Digits that a float holds are scaled by a float that is a power of ten. -/
theorem ofScientific_of_lt {n k : Nat} (hn : n < 2 ^ 53) (hk : k ≤ 22) (negative : Bool) :
    Float.ofScientific n negative k =
      if negative then (UInt64.ofNat n).toFloat / powerOfTen k
      else (UInt64.ofNat n).toFloat * powerOfTen k := by
  have htable : ∀ k : Fin 23, Float.exactlyRepresentablePowersOfTen[k] = powerOfTen k := by
    decide +kernel
  rw [Float.ofScientific, dif_pos ⟨hn, hk⟩]
  exact congrArg (fun y => if negative then (UInt64.ofNat n).toFloat / y
    else (UInt64.ofNat n).toFloat * y) (htable ⟨k, Nat.lt_succ_of_le hk⟩)

theorem ofScientific_of_le {n : Nat} {e : Int} (hn : 2 ^ 53 ≤ n) :
    Float.ofScientific n (e < 0) e.natAbs =
      .ofModel (.pack (UnpackedFloat.ofScientific Format.binary64 n e)) := by
  have he : (if decide (e < 0) = true then Int.negOfNat e.natAbs else Int.ofNat e.natAbs) = e := by
    split
    · rename_i hneg
      have hneg' := of_decide_eq_true hneg
      rw [Int.negOfNat_eq]
      show -(e.natAbs : Int) = e
      omega
    · rename_i hnonneg
      have hnonneg' := of_decide_eq_false (Bool.eq_false_iff.2 hnonneg)
      show (e.natAbs : Int) = e
      omega
  rw [Float.ofScientific, dif_neg (by omega)]
  dsimp only
  rw [he]
  rfl

/-- Digits that a float does not hold are scaled by a whole power of ten, and rounded once. -/
theorem exists_roundsTo_ofScientific {n : Nat} {e : Int} (hn : 2 ^ 53 ≤ n) (hsize : n < 2 ^ 64)
    (he : e.natAbs ≤ 22) :
    ∃ p r, RoundsTo (n * 10 ^ e)
      (.ofModel (.pack (UnpackedFloat.ofScientific Format.binary64 n e))) p r := by
  have hlog : 53 ≤ n.log2 := (Nat.le_log2 (by omega)).2 hn
  have hlog' : n.log2 < 64 := (Nat.log2_lt (by omega)).2 hsize
  have hten : (10 ^ e.natAbs).log2 < 74 := by
    have hle : 10 ^ e.natAbs ≤ 10 ^ 22 := Nat.pow_le_pow_right (by decide) he
    exact (Nat.log2_lt (Nat.pow_pos (by decide)).ne').2 (hle.trans_lt (by decide))
  have hbits : (2 : Int) ^ Format.binary64.exponentBits = 2048 := rfl
  unfold UnpackedFloat.ofScientific
  rw [dif_neg (by omega), if_neg (by omega), if_neg (by omega)]
  by_cases hneg : e < 0
  · have hpower : (-e).toNat = e.natAbs := by omega
    have hvalue : (n : ℚ) * 10 ^ e =
        n * 2 ^ (0 : Int) / ((10 ^ e.natAbs : Nat) * 2 ^ (0 : Int)) := by
      have hnat : e = -(e.natAbs : Int) := by omega
      rw [zpow_zero, mul_one, mul_one, Nat.cast_pow, Nat.cast_ofNat, div_eq_mul_inv, ← zpow_natCast,
        ← zpow_neg, ← hnat]
    rw [if_neg (by omega), hvalue]
    simp only [hpower]
    exact Json.exists_roundsTo_divCore (by omega) (Nat.pow_pos (by decide)) (by omega) (by omega)
  · have hpower : e.toNat = e.natAbs := by omega
    have hlong := Json.log2_mul_two_pow (by omega : n ≠ 0) 53
    have hvalue : (n : ℚ) * 10 ^ e =
        (n * 2 ^ 53 : Nat) * 2 ^ (-53 : Int) * ((10 ^ e.natAbs : Nat) * 2 ^ (0 : Int)) := by
      have hnat : (e.natAbs : Int) = e := by omega
      have hscaled : ((n * 2 ^ 53 : Nat) : ℚ) * 2 ^ (-53 : Int) = n := by
        rw [Nat.cast_mul, Nat.cast_pow, Nat.cast_ofNat, zpow_neg, zpow_ofNat,
          mul_inv_cancel_right₀ (by norm_num)]
      rw [hscaled, zpow_zero, mul_one, Nat.cast_pow, Nat.cast_ofNat, ← zpow_natCast, hnat]
    rw [if_pos (by omega), hvalue]
    simp only [hpower]
    show ∃ p r, RoundsTo _ (.ofModel (.pack (roundWithAccuracy _ .positive
      ((n <<< 53) * 10 ^ e.natAbs) (-53 + 0) .exact))) p r
    rw [Nat.shiftLeft_eq]
    exact Json.exists_roundsTo_product (by omega) (Nat.pow_pos (by decide)) (by omega) (by omega)
      (by omega)

/-- The float that is called the nearest one is the one that is rounded to. -/
theorem exists_roundsTo_nearestFloat {n : Nat} {e : Int} (hn : n ≠ 0) (hsize : n < 2 ^ 64)
    (he : e.natAbs ≤ 22) : ∃ p r, RoundsTo (n * 10 ^ e) (nearestFloat n e) p r := by
  have hdigits : (Nat.toDigits 10 n).length ≤ 20 :=
    (Nat.length_toDigits_le_iff (by decide) (by decide)).2 (hsize.trans (by decide))
  have hdigits' : 0 < (Nat.toDigits 10 n).length := Nat.length_toDigits_pos
  rw [nearestFloat, if_neg (by omega), if_neg (by omega)]
  by_cases hsmall : n < 2 ^ 53
  · obtain ⟨s, hs⟩ := Json.exists_roundsTo_toFloat hn hsize
    have hlog : n.log2 < 64 := (Nat.log2_lt hn).2 hsize
    obtain ⟨m, q, hx, hqlow, hqhigh, hvalue, -⟩ := hs.exists_normal
    obtain ⟨p, r, h⟩ := Json.exists_roundsTo_scaled hx (by omega) (by omega) he
    rw [hvalue, Json.eq_of_roundsTo hs hsmall.le] at h
    rw [ofScientific_of_lt hsmall he]
    simp only [decide_eq_true_eq]
    exact ⟨p, r, h⟩
  · rw [ofScientific_of_le (Nat.le_of_not_lt hsmall)]
    exact exists_roundsTo_ofScientific (Nat.le_of_not_lt hsmall) hsize he

end Gelf.Decimal

namespace Gelf.Json

open Decimal (exponent? namedFloat? nearestFloat readFloat? unsignedFloat?)

/-! ### Text -/

namespace Numeral

variable {n : Numeral}

theorem exponent?_eq (e : Int) :
    exponent? ((if e < 0 then '-' else '+') :: Nat.toDigits 10 e.natAbs) = some e := by
  have hdigits := Decimal.unsignedDigits?_toDigits e.natAbs
  by_cases hneg : e < 0
  · have he : -(e.natAbs : Int) = e := by omega
    rw [if_pos hneg, exponent?, hdigits]
    exact congrArg some he
  · have he : (e.natAbs : Int) = e := by omega
    rw [if_neg hneg, exponent?, hdigits]
    exact congrArg some he

theorem not_isDigit_head?_exponentChars (e : Option Int) :
    ∀ c ∈ (exponentChars e).head?, c.isDigit = false := by
  cases e with
  | none => exact fun c hc => by cases hc
  | some e => rintro c ⟨⟩; rfl

theorem not_isDigit_head?_fractionChars (ds : Option (List Char)) (e : Option Int) :
    ∀ c ∈ (fractionChars ds ++ exponentChars e).head?, c.isDigit = false := by
  cases ds with
  | none => exact not_isDigit_head?_exponentChars e
  | some ds => rintro c ⟨⟩; rfl

/-- A numeral is read from text as the float nearest to it. -/
theorem unsignedFloat?_chars (h : n.WellFormed) :
    unsignedFloat? n.chars = some (nearestFloat n.significand n.power) := by
  obtain ⟨hwhole, hrest⟩ := scan_append h.whole_digits
    (not_isDigit_head?_fractionChars n.fraction n.exponent)
  obtain ⟨hfraction, hbehind⟩ := scan_append h.fraction_digits
    (not_isDigit_head?_exponentChars n.exponent)
  have hne : ¬(n.whole = [] ∧ n.fraction.getD [] = []) := fun hnil => h.whole_ne_nil hnil.1
  rw [unsignedFloat?, chars, significand, power]
  simp only [hwhole, hrest, Text.digitsValue_eq]
  cases hds : n.fraction with
  | none =>
    rw [hds] at hne
    cases n.exponent with
    | none => exact if_neg hne
    | some e => exact (if_neg hne).trans (congrArg (Option.map _) (exponent?_eq e))
  | some ds =>
    simp only [hds, Option.getD_some] at hfraction hbehind hne
    simp only [fractionChars, List.cons_append, hfraction, hbehind]
    cases n.exponent with
    | none => exact if_neg hne
    | some e => exact (if_neg hne).trans (congrArg (Option.map _) (exponent?_eq e))

/-- Names start with letters. -/
theorem namedFloat?_of_isDigit {c : Char} (hc : c.isDigit = true) (cs : List Char) :
    namedFloat? (c :: cs) = none := by
  have hall : ∀ n < 58, 48 ≤ n → (Char.ofNat n).toLower ≠ 'i' ∧ (Char.ofNat n).toLower ≠ 'n' := by
    decide
  have hrange := toNat_mem_of_isDigit hc
  obtain ⟨hi, hn⟩ := hall c.toNat (by omega) hrange.1
  rw [Char.ofNat_toNat] at hi hn
  have hne (name : String) (d : Char) (hname : name.toList.head? = some d) (hd : c.toLower ≠ d) :
      String.ofList ((c :: cs).map Char.toLower) ≠ name := by
    rintro rfl
    rw [String.toList_ofList] at hname
    exact hd (Option.some.inj hname)
  rw [namedFloat?, if_neg (not_or.2 ⟨hne _ 'i' (by decide) hi, hne _ 'i' (by decide) hi⟩),
    if_neg (hne _ 'n' (by decide) hn)]

/-- Without a sign, a numeral is what a reader of floats takes. -/
theorem readFloat?_chars (h : n.WellFormed) :
    readFloat? (String.ofList n.chars) = some (nearestFloat n.significand n.power) := by
  obtain ⟨c, ds, heq⟩ := List.exists_cons_of_ne_nil h.whole_ne_nil
  have hc : c.isDigit = true := h.whole_digits c (heq ▸ List.mem_cons_self)
  obtain ⟨cs, hcs⟩ : ∃ cs, n.chars = c :: cs := ⟨_, by rw [chars, heq]; rfl⟩
  have hread : (namedFloat? n.chars).or (unsignedFloat? n.chars) =
      some (nearestFloat n.significand n.power) := by
    rw [unsignedFloat?_chars h, hcs, namedFloat?_of_isDigit hc]
    rfl
  rw [readFloat?, String.toList_ofList]
  rw [hcs] at hread ⊢
  split
  · rename_i hminus
    cases hminus
    cases hc
  · rename_i hplus
    cases hplus
    cases hc
  · exact hread

end Numeral

/-! ### Floats of ordinary size -/

theorem floatChars_of_unpack {x : FiniteFloat} {m : Nat} {q : Int} {hpos : 0 < m}
    (hx : x.val.toModel.unpack = .finite .positive m q hpos) :
    Decimal.floatChars numerals x.val = (Numeral.ofFloat x.val).chars := by
  rw [Decimal.floatChars, signChars_eq_sign, isNegative_of_unpack hx, Numeral.ofFloat,
    Numeral.chars_ofDecimal]
  rfl

/-- **Rounding once.** The text of a float of ordinary size is read as the float by a reader that
takes the nearest float. -/
theorem readFloat?_floatChars (x : FiniteFloat) (hlow : 1e-5 ≤ x.val) (hhigh : x.val < 1e22) :
    readFloat? (String.ofList (Decimal.floatChars numerals x.val)) = some x.val := by
  obtain ⟨m, q, hpos, hx, hqlow, hqhigh⟩ := exists_unpack_of_mem hlow hhigh
  obtain ⟨hsize, hpower⟩ := Numeral.bounds_ofFloat hx hqlow hqhigh
  have hwell : (Numeral.ofFloat x.val).WellFormed :=
    Numeral.wellFormed_ofDecimal Decimal.exponent_of_coefficient_eq_zero
  obtain ⟨p, r, hrounds⟩ := Decimal.exists_roundsTo_nearestFloat
    (significand_ofFloat_ne_zero hx) hsize hpower
  rw [← Numeral.value_eq, Numeral.ofFloat, Numeral.value_ofDecimal] at hrounds
  rw [floatChars_of_unpack hx, Numeral.readFloat?_chars hwell]
  exact congrArg some (Decimal.eq_of_roundsTo_ofFloat hx (by omega) hrounds)

end Gelf.Json
