import Gelf.Proofs.Decimal.Integers

/-!
# Natural numbers up to a limit

A natural number is read from decimal digits, which may have zeros in front and a plus sign before
them. Nothing else is read, and no number above the limit.
-/

namespace Gelf.Decimal

/-- The text is digits, perhaps behind a plus sign, and they have the value. -/
inductive StandsFor : List Char → Nat → Prop
  | digits {ds : List Char} (hne : ds ≠ []) (hds : ∀ c ∈ ds, c.isDigit = true) :
    StandsFor ds (Nat.ofDigitChars 10 ds 0)
  | plus {ds : List Char} (hne : ds ≠ []) (hds : ∀ c ∈ ds, c.isDigit = true) :
    StandsFor ('+' :: ds) (Nat.ofDigitChars 10 ds 0)

theorem not_digits_plus (ds : List Char) : ¬ ∀ c ∈ '+' :: ds, c.isDigit = true := by
  intro h
  have hdigit := h '+' List.mem_cons_self
  cases hdigit

theorem standsFor_plus_iff {ds : List Char} {n : Nat} :
    StandsFor ('+' :: ds) n ↔
      ds ≠ [] ∧ (∀ c ∈ ds, c.isDigit = true) ∧ Nat.ofDigitChars 10 ds 0 = n := by
  constructor
  · rintro (⟨-, hds⟩ | ⟨hne, hds⟩)
    · exact absurd hds (not_digits_plus ds)
    · exact ⟨hne, hds, rfl⟩
  · rintro ⟨hne, hds, rfl⟩
    exact .plus hne hds

theorem standsFor_iff {c : Char} (hc : c ≠ '+') {cs : List Char} {n : Nat} :
    StandsFor (c :: cs) n ↔
      (∀ d ∈ c :: cs, d.isDigit = true) ∧ Nat.ofDigitChars 10 (c :: cs) 0 = n := by
  constructor
  · rintro (⟨-, hds⟩ | ⟨-, -⟩)
    · exact ⟨hds, rfl⟩
    · exact absurd rfl hc
  · rintro ⟨hds, rfl⟩
    exact .digits (List.cons_ne_nil c cs) hds

theorem StandsFor.unique {cs : List Char} {m n : Nat} (hm : StandsFor cs m) (hn : StandsFor cs n) :
    m = n := by
  cases hm with
  | digits hne hds =>
    cases hn with
    | digits => rfl
    | plus => exact absurd hds (not_digits_plus _)
  | plus hne hds => exact (standsFor_plus_iff.1 hn).2.2

theorem digitsUpTo_eq_ok_iff {limit n m : Nat} (hn : n ≤ limit) {cs : List Char} :
    digitsUpTo limit n cs = .ok m ↔
      ((∀ c ∈ cs, c.isDigit = true) ∧ Nat.ofDigitChars 10 cs n = m) ∧ m ≤ limit := by
  induction cs generalizing n with
  | nil =>
    rw [digitsUpTo, Except.ok.injEq, Nat.ofDigitChars_nil]
    constructor
    · rintro rfl
      exact ⟨⟨nofun, rfl⟩, hn⟩
    · exact fun h => h.1.2
  | cons c cs ih =>
    rw [digitsUpTo, List.forall_mem_cons, Nat.ofDigitChars_cons]
    by_cases hdigit : c.isDigit = true
    · rw [if_pos hdigit]
      show (if limit < 10 * n + (c.toNat - '0'.toNat) then _ else _) = _ ↔ _
      split
      · -- what passes the limit never comes back below it
        rename_i hlarge
        have hle := Json.le_ofDigitChars cs (10 * n + (c.toNat - '0'.toNat))
        refine iff_of_false nofun ?_
        rintro ⟨⟨-, rfl⟩, hm⟩
        omega
      · rename_i hsmall
        rw [and_iff_right hdigit]
        exact ih (Nat.le_of_not_lt hsmall)
    · rw [if_neg hdigit]
      exact iff_of_false nofun fun h => hdigit h.1.1.1

/-- **Natural numbers.** What is read is what the digits stand for, up to the limit. -/
theorem readNat_eq_ok_iff {limit n : Nat} {s : String} :
    readNat limit s = .ok n ↔ StandsFor s.toList n ∧ n ≤ limit := by
  rw [readNat]
  cases s.toList with
  | nil =>
    refine iff_of_false nofun ?_
    rintro ⟨⟨hne⟩, -⟩
    exact hne rfl
  | cons c cs =>
    by_cases hc : c = '+'
    · subst hc
      cases cs with
      | nil => exact iff_of_false nofun fun h => (standsFor_plus_iff.1 h.1).1 rfl
      | cons d ds =>
        rw [standsFor_plus_iff, and_iff_right (List.cons_ne_nil d ds)]
        exact digitsUpTo_eq_ok_iff (Nat.zero_le limit)
    · rw [standsFor_iff hc, ← digitsUpTo_eq_ok_iff (Nat.zero_le limit)]
      split
      · rename_i heq
        cases heq
      · rename_i heq
        exact absurd (List.cons.inj heq).1 hc
      · exact Iff.rfl

end Gelf.Decimal
