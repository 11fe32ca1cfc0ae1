import Gelf.Decimal.Reading
import Gelf.Json.Printer
import Gelf.Proofs.Json.NumberText
import Gelf.Text.Blank

/-!
# Reading integers back

The text of an integer has no blanks around it, and it is read back as the integer if the integer
has a place in 64 bits with a sign. The text of any other integer is refused.
-/

namespace Gelf

namespace Text

/-- Nothing is trimmed where nothing is blank. -/
theorem trim_ofList {cs : List Char} (h : ∀ c ∈ cs, isBlank c = false) :
    trim (String.ofList cs) = String.ofList cs := by
  have hkeep {ds : List Char} (hds : ∀ c ∈ ds, isBlank c = false) : ds.dropWhile isBlank = ds := by
    cases ds with
    | nil => rfl
    | cons c ds => exact List.dropWhile_cons_of_neg (by simp [hds c List.mem_cons_self])
  rw [trim, String.toList_ofList, trimChars, hkeep h,
    hkeep fun c hc => h c (List.mem_reverse.1 hc), List.reverse_reverse]

theorem isBlank_of_isDigit {c : Char} (h : c.isDigit = true) : isBlank c = false := by
  have hc := Json.toNat_mem_of_isDigit h
  have hall : ∀ n < 58, 48 ≤ n → isBlank (Char.ofNat n) = false := by decide
  rw [← Char.ofNat_toNat c]
  exact hall c.toNat (by omega) hc.1

theorem digitsValue_eq (cs : List Char) : digitsValue cs = Nat.ofDigitChars 10 cs 0 := by
  have hfold (n : Nat) :
      cs.foldl (fun n c => 10 * n + digitValue c) n = Nat.ofDigitChars 10 cs n := by
    induction cs generalizing n with
    | nil => rfl
    | cons c cs ih =>
      rw [List.foldl_cons, ih, Nat.ofDigitChars_cons]
      rfl
  exact hfold 0

end Text

namespace Decimal

theorem unsignedDigits?_toDigits (n : Nat) : unsignedDigits? (Nat.toDigits 10 n) = some n := by
  have hdigits : (Nat.toDigits 10 n).all Char.isDigit = true :=
    List.all_eq_true.2 (Json.allDigits_toDigits n)
  rw [unsignedDigits?, if_pos ⟨Nat.toDigits_ne_nil, hdigits⟩, Text.digitsValue_eq,
    Nat.ofDigitChars_ten_toDigits]

theorem trim_integerChars (n : Int) :
    Text.trim (String.ofList (Json.integerChars n)) = String.ofList (Json.integerChars n) := by
  have hdigits : ∀ c ∈ Nat.toDigits 10 n.natAbs, Text.isBlank c = false := by
    intro c hc
    exact Text.isBlank_of_isDigit (Json.allDigits_toDigits n.natAbs c hc)
  apply Text.trim_ofList
  rw [Json.integerChars]
  split
  · intro c hc
    rcases List.mem_cons.1 hc with rfl | hc
    · decide
    · exact hdigits c hc
  · exact hdigits

/-- **Integers.** The text of an integer is read back if the integer fits in 64 bits with a sign. -/
theorem readInt64?_integerChars (n : Int) :
    readInt64? (String.ofList (Json.integerChars n)) =
      if -0x8000000000000000 ≤ n ∧ n < 0x8000000000000000 then some n else none := by
  suffices hvalue : readInt64? (String.ofList (Json.integerChars n)) =
      (some n).filter fun n => -0x8000000000000000 ≤ n ∧ n < 0x8000000000000000 by
    rw [hvalue, Option.filter_some]
    simp only [decide_eq_true_eq]
  have hread := unsignedDigits?_toDigits n.natAbs
  rw [readInt64?, String.toList_ofList, Json.integerChars]
  by_cases hneg : n < 0
  · have hn : n = -(n.natAbs : Int) := by omega
    rw [if_pos hneg]
    simp only [hread]
    exact congrArg (fun m => (some m).filter _) hn.symm
  · have hn : n = (n.natAbs : Int) := by omega
    obtain ⟨c, cs, heq⟩ := List.exists_cons_of_ne_nil
      (Nat.toDigits_ne_nil (b := 10) (n := n.natAbs))
    have hdigit : c.isDigit = true :=
      Json.allDigits_toDigits n.natAbs c (heq ▸ List.mem_cons_self)
    rw [if_neg hneg, heq]
    split
    · rename_i hminus
      cases hminus
      cases hdigit
    · rename_i hplus
      cases hplus
      cases hdigit
    · rw [← heq, hread]
      exact congrArg (fun m => (some m).filter _) hn.symm

end Decimal

end Gelf
