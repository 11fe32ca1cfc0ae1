import Gelf.Proofs.Decimal.Bounds
import Gelf.Proofs.Json.StringText

/-!
# Reading numbers back

A printed integer is read back as the same integer, and a printed float as a float. A `Numeral` is
what the reader sees of a number: digits, maybe a fraction, maybe an exponent. Printed floats are
numerals whose value is that of the shortest decimal, so reading them never leaves the range of
floats.
-/

namespace Gelf.Json

/-- What may stand behind a value: nothing, or the punctuation of what is around it. -/
def Ends (rest : List UInt8) : Prop :=
  ∀ b ∈ rest.head?, b = octet ',' ∨ b = octet '}' ∨ b = octet ']'

/-! ### Digits -/

def AllDigits (ds : List Char) : Prop := ∀ c ∈ ds, c.isDigit = true

theorem toNat_mem_of_isDigit {c : Char} (h : c.isDigit = true) : 48 ≤ c.toNat ∧ c.toNat ≤ 57 := by
  simp only [Char.isDigit, Bool.and_eq_true, decide_eq_true_eq] at h
  exact ⟨UInt32.le_iff_toNat_le.1 h.1, UInt32.le_iff_toNat_le.1 h.2⟩

theorem isDigit_octet {c : Char} (h : c.isDigit = true) : isDigit (octet c) = true := by
  have hc := toNat_mem_of_isDigit h
  have hoctet := toNat_octet (c := c) (by omega)
  simp only [isDigit, Bool.and_eq_true, decide_eq_true_eq, UInt8.le_iff_toNat_le, hoctet]
  exact hc

theorem digitValue_octet {c : Char} (h : c.isDigit = true) :
    digitValue (octet c) = c.toNat - '0'.toNat := by
  have hc := toNat_mem_of_isDigit h
  rw [digitValue, toNat_octet (by omega), toNat_octet (by decide)]

theorem allDigits_toDigits (n : Nat) : AllDigits (Nat.toDigits 10 n) := by
  intro c hc
  exact Nat.isDigit_of_mem_toDigits (by decide) (by decide) hc

theorem allDigits_append {cs ds : List Char} (hcs : AllDigits cs) (hds : AllDigits ds) :
    AllDigits (cs ++ ds) := by
  intro c hc
  rcases List.mem_append.1 hc with hc | hc
  · exact hcs c hc
  · exact hds c hc

theorem allDigits_replicate (n : Nat) : AllDigits (List.replicate n '0') := by
  intro c hc
  rw [List.eq_of_mem_replicate hc]
  rfl

theorem octets_of_allDigits {ds : List Char} (h : AllDigits ds) : octets ds = ds.map octet := by
  induction ds with
  | nil => rfl
  | cons c ds ih =>
    have hc := toNat_mem_of_isDigit (h c List.mem_cons_self)
    rw [octets_cons_of_le ds (by omega), ih fun d hd => h d (List.mem_cons_of_mem c hd)]
    rfl

theorem isDigit_of_mem_octets {ds : List Char} (h : AllDigits ds) {b : UInt8}
    (hb : b ∈ octets ds) : isDigit b = true := by
  rw [octets_of_allDigits h] at hb
  obtain ⟨c, hc, rfl⟩ := List.mem_map.1 hb
  exact isDigit_octet (h c hc)

def NoDigit (rest : List UInt8) : Prop := ∀ b ∈ rest.head?, isDigit b = false

theorem Ends.noDigit {rest : List UInt8} (h : Ends rest) : NoDigit rest := fun b hb => by
  rcases h b hb with rfl | rfl | rfl <;> decide

/-- A scan goes on as long as it may, and ends where it must. -/
theorem scan_append {α : Type} {p : α → Bool} {as rest : List α} (h : ∀ a ∈ as, p a = true)
    (hrest : ∀ a ∈ rest.head?, p a = false) :
    (as ++ rest).takeWhile p = as ∧ (as ++ rest).dropWhile p = rest := by
  rw [List.takeWhile_append_of_pos h, List.dropWhile_append_of_pos h]
  cases rest with
  | nil => exact ⟨List.append_nil as, rfl⟩
  | cons a rest => simp [hrest a rfl]

theorem takeWhile_octets {ds : List Char} (h : AllDigits ds) {rest : List UInt8}
    (hrest : NoDigit rest) : (octets ds ++ rest).takeWhile isDigit = octets ds :=
  (scan_append (fun _ hb => isDigit_of_mem_octets h hb) hrest).1

theorem dropWhile_octets {ds : List Char} (h : AllDigits ds) {rest : List UInt8}
    (hrest : NoDigit rest) : (octets ds ++ rest).dropWhile isDigit = rest :=
  (scan_append (fun _ hb => isDigit_of_mem_octets h hb) hrest).2

theorem octets_ne_nil {cs : List Char} (h : cs ≠ []) : octets cs ≠ [] := by
  cases cs with
  | nil => exact absurd rfl h
  | cons c cs =>
    rw [octets_cons]
    exact List.append_ne_nil_of_left_ne_nil String.utf8EncodeChar_ne_nil _

theorem digitsValue_octets {ds : List Char} (h : AllDigits ds) :
    digitsValue (octets ds) = Nat.ofDigitChars 10 ds 0 := by
  have hfold (n : Nat) : (octets ds).foldl (fun n d => 10 * n + digitValue d) n =
      Nat.ofDigitChars 10 ds n := by
    rw [octets_of_allDigits h]
    induction ds generalizing n with
    | nil => rfl
    | cons c ds ih =>
      rw [List.map_cons, List.foldl_cons, digitValue_octet (h c List.mem_cons_self),
        ih fun d hd => h d (List.mem_cons_of_mem c hd), Nat.ofDigitChars_cons]
  exact hfold 0

/-! ### Significands -/

theorem le_ofDigitChars (ds : List Char) (n : Nat) : n ≤ Nat.ofDigitChars 10 ds n := by
  rw [Nat.ofDigitChars_eq_ofDigitChars_zero]
  exact (Nat.le_mul_of_pos_left n (Nat.pow_pos (by decide))).trans (Nat.le_add_right _ _)

theorem ofDigitChars_lt {ds : List Char} (h : AllDigits ds) (n : Nat) :
    Nat.ofDigitChars 10 ds n < (n + 1) * 10 ^ ds.length := by
  induction ds generalizing n with
  | nil => simp
  | cons c ds ih =>
    have hc := toNat_mem_of_isDigit (h c List.mem_cons_self)
    have hzero : '0'.toNat = 48 := rfl
    rw [Nat.ofDigitChars_cons, List.length_cons, Nat.pow_succ, Nat.mul_comm (10 ^ ds.length),
      ← Nat.mul_assoc]
    calc Nat.ofDigitChars 10 ds (10 * n + (c.toNat - '0'.toNat))
      _ < (10 * n + (c.toNat - '0'.toNat) + 1) * 10 ^ ds.length :=
        ih (fun d hd => h d (List.mem_cons_of_mem c hd)) _
      _ ≤ (n + 1) * 10 * 10 ^ ds.length := Nat.mul_le_mul_right _ (by omega)

theorem absorb_of_lt {ds : List Char} (h : AllDigits ds) {n : Nat}
    (hsize : Nat.ofDigitChars 10 ds n < 2 ^ 64) :
    absorb n (octets ds) = (Nat.ofDigitChars 10 ds n, []) := by
  rw [octets_of_allDigits h]
  induction ds generalizing n with
  | nil => rfl
  | cons c ds ih =>
    rw [Nat.ofDigitChars_cons, Nat.mul_comm] at hsize ⊢
    have hfits : n * 10 + (c.toNat - '0'.toNat) < 0x10000000000000000 :=
      (le_ofDigitChars ds _).trans_lt hsize
    rw [List.map_cons, absorb, digitValue_octet (h c List.mem_cons_self), if_pos hfits]
    exact ih (fun d hd => h d (List.mem_cons_of_mem c hd)) hsize

/-- What is taken in fits in 64 bits, and with zeros for the digits that are left out it is at most
the whole number. -/
theorem absorb_le {ds : List Char} (h : AllDigits ds) {n : Nat} (hn : n < 2 ^ 64) :
    (absorb n (octets ds)).1 < 2 ^ 64 ∧
      (absorb n (octets ds)).1 * 10 ^ (absorb n (octets ds)).2.length ≤
        Nat.ofDigitChars 10 ds n := by
  rw [octets_of_allDigits h]
  induction ds generalizing n with
  | nil => exact ⟨hn, by simp [absorb]⟩
  | cons c ds ih =>
    rw [List.map_cons, absorb, digitValue_octet (h c List.mem_cons_self)]
    by_cases hfits : n * 10 + (c.toNat - '0'.toNat) < 0x10000000000000000
    · rw [if_pos hfits, Nat.ofDigitChars_cons, Nat.mul_comm 10 n]
      exact ih (fun d hd => h d (List.mem_cons_of_mem c hd)) hfits
    · rw [if_neg hfits]
      refine ⟨hn, ?_⟩
      rw [Nat.ofDigitChars_eq_ofDigitChars_zero, List.length_cons, List.length_map,
        List.length_cons, Nat.mul_comm]
      exact Nat.le_add_right _ _

/-! ### Numerals -/

/-- The parts of a number without its sign. -/
structure Numeral where
  whole : List Char
  fraction : Option (List Char)
  exponent : Option Int

namespace Numeral

def fractionChars : Option (List Char) → List Char
  | none => []
  | some ds => '.' :: ds

def exponentChars : Option Int → List Char
  | none => []
  | some e => 'e' :: (if e < 0 then '-' else '+') :: Nat.toDigits 10 e.natAbs

def chars (n : Numeral) : List Char :=
  n.whole ++ (fractionChars n.fraction ++ exponentChars n.exponent)

def value (n : Numeral) : ℚ :=
  Nat.ofDigitChars 10 (n.whole ++ n.fraction.getD []) 0 *
    10 ^ (n.exponent.getD 0 - (n.fraction.getD []).length)

/-- The number that all digits make, without the point. -/
def significand (n : Numeral) : Nat := Nat.ofDigitChars 10 (n.whole ++ n.fraction.getD []) 0

/-- The power of ten that puts the point where it belongs. -/
def power (n : Numeral) : Int := n.exponent.getD 0 - (n.fraction.getD []).length

theorem value_eq (n : Numeral) : n.value = n.significand * 10 ^ n.power := rfl

/-- A numeral that readers accept: a zero in front stands alone, and a point has digits on both
sides. -/
structure WellFormed (n : Numeral) : Prop where
  whole_ne_nil : n.whole ≠ []
  whole_digits : AllDigits n.whole
  zero : n.whole.head? = some '0' → n.whole = ['0']
  fraction_ne_nil : ∀ ds ∈ n.fraction, ds ≠ []
  fraction_digits : AllDigits (n.fraction.getD [])

variable {n : Numeral} {rest : List UInt8}

theorem noDigit_exponentChars (e : Option Int) (hrest : Ends rest) :
    NoDigit (octets (exponentChars e) ++ rest) := by
  cases e with
  | none => exact hrest.noDigit
  | some e =>
    rw [exponentChars, octets_cons_of_le _ (by decide)]
    rintro b ⟨⟩
    decide

theorem noDigit_fractionChars (ds : Option (List Char)) (e : Option Int) (hrest : Ends rest) :
    NoDigit (octets (fractionChars ds) ++ (octets (exponentChars e) ++ rest)) := by
  cases ds with
  | none => exact noDigit_exponentChars e hrest
  | some ds =>
    rw [fractionChars, octets_cons_of_le _ (by decide)]
    rintro b ⟨⟩
    decide

theorem wholeDigits_octets (h : n.WellFormed) (hrest : NoDigit rest) :
    wholeDigits (octets n.whole ++ rest) = .ok (octets n.whole, rest) := by
  obtain ⟨c, ds, heq⟩ := List.exists_cons_of_ne_nil h.whole_ne_nil
  have hdigits := h.whole_digits
  have hzero := h.zero
  rw [heq] at hdigits hzero ⊢
  have hc := hdigits c List.mem_cons_self
  have hle := toNat_mem_of_isDigit hc
  have hds : AllDigits ds := by
    intro d hd
    exact hdigits d (List.mem_cons_of_mem c hd)
  rw [octets_cons_of_le ds (by omega), List.cons_append, wholeDigits, takeWhile_octets hds hrest,
    dropWhile_octets hds hrest]
  by_cases hnil : octet c = octet '0'
  · have hc0 : c = '0' := (octet_inj (by omega) (by decide)).1 hnil
    subst hc0
    cases hzero rfl
    rfl
  · rw [if_neg hnil, if_pos (isDigit_octet hc)]

theorem someDigits_octets {ds : List Char} (hne : ds ≠ []) (hds : AllDigits ds)
    (hrest : NoDigit rest) : someDigits (octets ds ++ rest) = .ok (octets ds, rest) := by
  have hisEmpty : ¬ (octets ds).isEmpty = true := by
    intro h
    exact octets_ne_nil hne (List.isEmpty_iff.1 h)
  rw [someDigits, takeWhile_octets hds hrest, dropWhile_octets hds hrest, if_neg hisEmpty]

theorem fractionDigits_of_head? {s : List UInt8} (h : ∀ b ∈ s.head?, b ≠ octet '.') :
    fractionDigits s = .ok (none, s) := by
  cases s with
  | nil => rfl
  | cons b s => exact if_neg (h b rfl)

theorem fractionDigits_octets (h : n.WellFormed) (hrest : Ends rest) :
    fractionDigits (octets (fractionChars n.fraction) ++ (octets (exponentChars n.exponent) ++
      rest)) = .ok (n.fraction.map octets, octets (exponentChars n.exponent) ++ rest) := by
  have hnext := noDigit_exponentChars n.exponent hrest
  cases hfraction : n.fraction with
  | none =>
    apply fractionDigits_of_head?
    intro b hb
    cases hexponent : n.exponent with
    | none =>
      rw [hexponent] at hb
      rcases hrest b hb with rfl | rfl | rfl <;> decide
    | some e =>
      rw [hexponent, exponentChars, octets_cons_of_le _ (by decide)] at hb
      cases hb
      decide
  | some ds =>
    have hds : AllDigits ds := by simpa [hfraction] using h.fraction_digits
    rw [fractionChars, octets_cons_of_le _ (by decide), List.cons_append, fractionDigits,
      if_pos rfl, someDigits_octets (h.fraction_ne_nil ds hfraction) hds hnext]
    rfl

theorem exponent_octets (e : Option Int) (hrest : Ends rest) :
    Json.exponent (octets (exponentChars e) ++ rest) = .ok (e, rest) := by
  cases e with
  | none =>
    cases rest with
    | nil => rfl
    | cons b rest =>
      have hb : ¬ (b = octet 'e' ∨ b = octet 'E') := by
        rcases hrest b rfl with rfl | rfl | rfl <;> decide
      exact if_neg hb
  | some e =>
    have hdigits := someDigits_octets Nat.toDigits_ne_nil (allDigits_toDigits e.natAbs)
      hrest.noDigit
    have hvalue := digitsValue_octets (allDigits_toDigits e.natAbs)
    rw [Nat.ofDigitChars_ten_toDigits] at hvalue
    rw [exponentChars, octets_cons_of_le _ (by decide), List.cons_append, Json.exponent,
      if_pos (.inl rfl)]
    by_cases hneg : e < 0
    · rw [if_pos hneg, octets_cons_of_le _ (by decide), List.cons_append, signedExponent,
        if_neg (by decide), if_pos rfl, hdigits]
      simp only [Except.map, hvalue]
      congr
      omega
    · rw [if_neg hneg, octets_cons_of_le _ (by decide), List.cons_append, signedExponent,
        if_pos rfl, hdigits]
      simp only [Except.map, hvalue]
      congr
      omega

/-- A well-formed numeral is taken apart as it was put together. -/
theorem number_octets (h : n.WellFormed) (negative : Bool) (hrest : Ends rest) :
    number negative (octets n.chars ++ rest) =
      (assemble negative (octets n.whole) (n.fraction.map octets) n.exponent).map
        fun a => (a, rest) := by
  rw [chars, octets_append, octets_append, List.append_assoc, List.append_assoc, number,
    wholeDigits_octets h (noDigit_fractionChars _ _ hrest)]
  simp only [bind, Except.bind, fractionDigits_octets h hrest, exponent_octets _ hrest]
  cases assemble negative (octets n.whole) (n.fraction.map octets) n.exponent <;> rfl

end Numeral

/-! ### Integers -/

theorem head?_toDigits_ne {n : Nat} (hn : n ≠ 0) : (Nat.toDigits 10 n).head? ≠ some '0' := by
  induction n using Nat.base_induction 10 (by decide) with
  | single m hm =>
    rw [Nat.toDigits_of_lt_base hm]
    simpa using hn
  | digit m k hk hm ih =>
    rw [← Nat.toDigits_append_toDigits (by decide) hm hk, List.head?_append_of_ne_nil _
      Nat.toDigits_ne_nil]
    exact ih hm.ne'

theorem eq_zero_of_head?_toDigits {n : Nat} (h : (Nat.toDigits 10 n).head? = some '0') : n = 0 :=
  Classical.byContradiction fun hn => head?_toDigits_ne hn h

def Numeral.ofNat (n : Nat) : Numeral where
  whole := Nat.toDigits 10 n
  fraction := none
  exponent := none

theorem Numeral.wellFormed_ofNat (n : Nat) : (Numeral.ofNat n).WellFormed where
  whole_ne_nil := Nat.toDigits_ne_nil
  whole_digits := allDigits_toDigits n
  zero h := by
    have hn := eq_zero_of_head?_toDigits h
    subst hn
    rfl
  fraction_ne_nil _ h := by cases h
  fraction_digits _ h := by cases h

theorem assemble_ofNat {k : Nat} (negative : Bool) (hk : k < 2 ^ 64)
    (hzero : negative = true → k ≠ 0) {n : Integer} (hn : n.val = if negative then -(k : Int) else k) :
    assemble negative (octets (Nat.toDigits 10 k)) none none = .ok (.integer n) := by
  have habsorb : absorb 0 (octets (Nat.toDigits 10 k)) = (k, []) := by
    have hvalue : Nat.ofDigitChars 10 (Nat.toDigits 10 k) 0 = k := Nat.ofDigitChars_ten_toDigits
    rw [absorb_of_lt (allDigits_toDigits k) (hvalue.symm ▸ hk), hvalue]
  have hnonzero : (negative && k == 0) = false := by
    cases negative with
    | false => rfl
    | true => simpa using hzero rfl
  unfold assemble
  simp only [habsorb, Option.isNone_none, Bool.and_true, hnonzero, List.isEmpty_nil,
    Bool.not_false, ↓reduceIte, ← hn, Integer.ofInt?_val]

/-- **Integers.** The digits of an integer are read back as the integer. -/
theorem number_integer (n : Integer) {rest : List UInt8} (hrest : Ends rest) :
    number (n.val < 0) (octets (Nat.toDigits 10 n.val.natAbs) ++ rest) =
      .ok (.integer n, rest) := by
  have hlower := n.lower
  have hupper := n.upper
  have hread := Numeral.number_octets (Numeral.wellFormed_ofNat n.val.natAbs) (n.val < 0) hrest
  have hassemble := assemble_ofNat (k := n.val.natAbs) (decide (n.val < 0)) (by omega)
    (fun h => by have := of_decide_eq_true h; omega) (n := n) (by
      by_cases h : n.val < 0
      · rw [if_pos (decide_eq_true h)]
        omega
      · rw [if_neg (by simpa using h)]
        omega)
  have hchars : (Numeral.ofNat n.val.natAbs).chars = Nat.toDigits 10 n.val.natAbs :=
    List.append_nil _
  rw [hchars] at hread
  rw [hread]
  show Except.map _ (assemble _ (octets (Nat.toDigits 10 n.val.natAbs)) none none) = _
  rw [hassemble]
  rfl

/-! ### Floats -/

/-- The parts of a decimal in the notation of JSON. -/
def Numeral.ofDecimal (d : Decimal) : Numeral :=
  if numerals.positional d.point then
    if d.point ≤ 0 then
      { whole := ['0'], fraction := some (List.replicate (-d.point).toNat '0' ++ d.digits),
        exponent := none }
    else if d.point.toNat < d.digits.length then
      { whole := d.digits.take d.point.toNat, fraction := some (d.digits.drop d.point.toNat),
        exponent := none }
    else
      { whole := d.digits ++ List.replicate (d.point.toNat - d.digits.length) '0',
        fraction := some ['0'], exponent := none }
  else
    { whole := d.digits.take 1, fraction := if d.digits.tail = [] then none else some d.digits.tail,
      exponent := some (d.point - 1) }

namespace Numeral

variable {d : Decimal}

theorem digits_ne_nil (d : Decimal) : d.digits ≠ [] := Nat.toDigits_ne_nil

theorem allDigits_digits (d : Decimal) : AllDigits d.digits := allDigits_toDigits d.coefficient

theorem chars_ofDecimal (d : Decimal) : (ofDecimal d).chars = d.chars numerals := by
  unfold ofDecimal Decimal.chars Decimal.positionalChars
  by_cases hpositional : numerals.positional d.point = true
  · rw [if_pos hpositional, if_pos hpositional]
    by_cases hsmall : d.point ≤ 0
    · rw [if_pos hsmall]
      simp [chars, fractionChars, exponentChars, hsmall]
    · rw [if_neg hsmall]
      by_cases hinside : d.point.toNat < d.digits.length
      · rw [if_pos hinside]
        simp [chars, fractionChars, exponentChars, hsmall, hinside]
      · rw [if_neg hinside]
        simp [chars, fractionChars, exponentChars, hsmall, hinside, numerals]
  · rw [if_neg hpositional, if_neg hpositional]
    unfold Decimal.exponentChars chars
    obtain ⟨c, cs, heq⟩ := List.exists_cons_of_ne_nil (digits_ne_nil d)
    rw [heq]
    cases cs with
    | nil => rfl
    | cons c' cs => simp [fractionChars, exponentChars]

theorem digits_of_head? (h : d.digits.head? = some '0') : d.coefficient = 0 ∧ d.digits = ['0'] := by
  have hzero := eq_zero_of_head?_toDigits h
  rw [Decimal.digits, hzero]
  exact ⟨rfl, rfl⟩

theorem wellFormed_ofDecimal (h : d.coefficient = 0 → d.exponent = 0) :
    (ofDecimal d).WellFormed := by
  have hdigits := allDigits_digits d
  have hne := digits_ne_nil d
  have hpos := List.length_pos_iff.2 hne
  have hpoint : d.point = d.digits.length + d.exponent := rfl
  unfold ofDecimal
  split
  · split
    · exact
        { whole_ne_nil := by simp
          whole_digits := by simp [AllDigits]
          zero := fun _ => rfl
          fraction_ne_nil := by simp [hne]
          fraction_digits := allDigits_append (allDigits_replicate _) hdigits }
    · split
      · rename_i hlarge hinside
        have htake : d.digits.take d.point.toNat ≠ [] := by
          simp only [ne_eq, List.take_eq_nil_iff, hne, or_false]
          omega
        exact
          { whole_ne_nil := htake
            whole_digits := fun c hc => hdigits c (List.mem_of_mem_take hc)
            zero := fun hhead => by
              rw [List.head?_take, if_neg (by omega)] at hhead
              have hone := congrArg List.length (digits_of_head? hhead).2
              simp only [List.length_cons, List.length_nil] at hone
              omega
            fraction_ne_nil := by simpa using hinside
            fraction_digits := fun c hc => hdigits c (List.mem_of_mem_drop hc) }
      · rename_i hlarge houtside
        exact
          { whole_ne_nil := List.append_ne_nil_of_left_ne_nil hne _
            whole_digits := allDigits_append hdigits (allDigits_replicate _)
            zero := fun hhead => by
              rw [List.head?_append_of_ne_nil _ hne] at hhead
              obtain ⟨hzero, hone⟩ := digits_of_head? hhead
              have hexponent := h hzero
              simp only [hone, List.length_cons, List.length_nil] at hpoint
              have hpoint' : d.point.toNat = 1 := by omega
              simp [hone, hpoint']
            fraction_ne_nil := by simp
            fraction_digits := by simp [AllDigits] }
  · obtain ⟨c, cs, heq⟩ := List.exists_cons_of_ne_nil hne
    rw [heq] at hdigits ⊢
    exact
      { whole_ne_nil := by simp
        whole_digits := fun c hc => hdigits c (List.mem_of_mem_take hc)
        zero := by simp
        fraction_ne_nil := by cases cs <;> simp
        fraction_digits := fun c' hc' => by
          refine hdigits c' (List.mem_cons_of_mem c ?_)
          cases cs with
          | nil => simp at hc'
          | cons c cs => simpa using hc' }

theorem ofDigitChars_digits (d : Decimal) : Nat.ofDigitChars 10 d.digits 0 = d.coefficient :=
  Nat.ofDigitChars_ten_toDigits

/-- The digits of a decimal are written as they are, but for a whole number, which gets the zeros
that it ends in and one more behind the point. -/
theorem parts_ofDecimal (d : Decimal) :
    (ofDecimal d).significand = d.coefficient ∧ (ofDecimal d).power = d.exponent ∨
      ∃ k : Nat, d.exponent = k ∧ (ofDecimal d).significand = d.coefficient * 10 ^ (k + 1) ∧
        (ofDecimal d).power = -1 ∧ (ofDecimal d).significand < 10 ^ 17 := by
  have hcoefficient := ofDigitChars_digits d
  have hpoint : d.point = d.digits.length + d.exponent := rfl
  have hpos := List.length_pos_iff.2 (digits_ne_nil d)
  unfold ofDecimal
  split
  · rename_i hpositional
    split
    · refine .inl ⟨?_, ?_⟩
      · simp only [significand, Option.getD_some, Nat.ofDigitChars_append, Nat.ofDigitChars_cons,
          Nat.ofDigitChars_nil, Nat.ofDigitChars_replicate_zero, Nat.sub_self, Nat.mul_zero,
          Nat.add_zero, hcoefficient]
      · simp only [power, Option.getD_some, Option.getD_none, List.length_append,
          List.length_replicate]
        omega
    · split
      · refine .inl ⟨?_, ?_⟩
        · simp only [significand, Option.getD_some, List.take_append_drop, hcoefficient]
        · simp only [power, Option.getD_some, Option.getD_none, List.length_drop]
          omega
      · obtain ⟨k, hk⟩ : ∃ k : Nat, d.exponent = k := ⟨d.exponent.toNat, by omega⟩
        have hcount : d.point.toNat - d.digits.length = k := by omega
        refine .inr ⟨k, hk, ?_, rfl, ?_⟩
        · simp only [significand, Option.getD_some, Nat.ofDigitChars_append, Nat.ofDigitChars_cons,
            Nat.ofDigitChars_nil, Nat.ofDigitChars_replicate_zero, hcoefficient, hcount,
            Nat.sub_self, Nat.add_zero]
          ring
        · have hdigits : AllDigits (d.digits ++ List.replicate (d.point.toNat - d.digits.length) '0' ++
              ['0']) :=
            allDigits_append (allDigits_append (allDigits_digits d) (allDigits_replicate _))
              (allDigits_replicate 1)
          have hlength : (d.digits ++ List.replicate (d.point.toNat - d.digits.length) '0' ++
              ['0']).length ≤ 17 := by
            simp only [numerals, Bool.and_eq_true, decide_eq_true_eq] at hpositional
            simp only [List.length_append, List.length_replicate, List.length_cons, List.length_nil]
            omega
          exact (ofDigitChars_lt hdigits 0).trans_le
            ((Nat.one_mul _).trans_le (Nat.pow_le_pow_right (by decide) hlength))
  · obtain ⟨c, cs, heq⟩ := List.exists_cons_of_ne_nil (digits_ne_nil d)
    have hparts : d.digits.take 1 ++ (if d.digits.tail = [] then none
        else some d.digits.tail : Option (List Char)).getD [] = d.digits := by
      rw [heq]
      cases cs <;> simp
    have hlength : ((if d.digits.tail = [] then none
        else some d.digits.tail : Option (List Char)).getD []).length = d.digits.length - 1 := by
      rw [heq]
      cases cs <;> simp
    refine .inl ⟨?_, ?_⟩
    · simp only [significand, hparts, hcoefficient]
    · simp only [power, hlength, Option.getD_some]
      omega

theorem value_ofDecimal (d : Decimal) : (ofDecimal d).value = d.value := by
  rw [value_eq, Decimal.value]
  rcases parts_ofDecimal d with ⟨hsignificand, hpower⟩ | ⟨k, hk, hsignificand, hpower, -⟩
  · rw [hsignificand, hpower]
  · rw [hsignificand, hpower, hk, Nat.cast_mul, Nat.cast_pow, Nat.cast_ofNat, zpow_neg_one,
      zpow_natCast, pow_succ]
    field_simp

/-- A float is never written like an integer, and it has at most 16 digits before its point. -/
theorem ofDecimal_shape (d : Decimal) :
    ((ofDecimal d).fraction.isNone && (ofDecimal d).exponent.isNone) = false ∧
      (ofDecimal d).whole.length ≤ 16 := by
  unfold ofDecimal
  split
  · rename_i hpositional
    simp only [numerals, Bool.and_eq_true, decide_eq_true_eq] at hpositional
    split
    · exact ⟨rfl, by simp⟩
    · split
      · refine ⟨rfl, ?_⟩
        rw [List.length_take]
        omega
      · refine ⟨rfl, ?_⟩
        rw [List.length_append, List.length_replicate]
        omega
  · refine ⟨Bool.and_false _, ?_⟩
    rw [List.length_take]
    omega

/-- A numeral that is not written like an integer is scaled, after what fits of its fraction was
taken in behind the whole part. -/
theorem assemble_eq_scale {n : Numeral} (h : n.WellFormed) (negative : Bool)
    (hreal : (n.fraction.isNone && n.exponent.isNone) = false) {w : Nat}
    (hw : w = Nat.ofDigitChars 10 n.whole 0) (hsize : w < 2 ^ 64) {a : Nat × List UInt8}
    (ha : a = absorb w (octets (n.fraction.getD []))) :
    assemble negative (octets n.whole) (n.fraction.map octets) n.exponent =
      scale negative a.1 (a.2.length + n.power) := by
  have hwhole : absorb 0 (octets n.whole) = (w, []) := by
    rw [absorb_of_lt h.whole_digits (hw ▸ hsize), hw]
  have hfraction : (n.fraction.map octets).getD [] = octets (n.fraction.getD []) := by
    cases n.fraction <;> rfl
  have hlength : (octets (n.fraction.getD [])).length = (n.fraction.getD []).length := by
    rw [octets_of_allDigits h.fraction_digits, List.length_map]
  have hreal' : ((n.fraction.map octets).isNone && n.exponent.isNone) = false := by
    rw [Option.isNone_map]
    exact hreal
  have hexponent : (a.2.length : Int) - (n.fraction.getD []).length + n.exponent.getD 0 =
      a.2.length + n.power := by
    rw [power]
    ring
  unfold assemble
  simp only [hwhole, hfraction, ← ha, hlength, List.isEmpty_nil, Bool.true_and, hreal',
    Bool.false_and, List.length_nil, Bool.false_eq_true, ↓reduceIte, Int.natCast_zero, zero_add,
    hexponent]

/-- Nothing is dropped of digits that fit in 64 bits. -/
theorem assemble_of_lt {n : Numeral} (h : n.WellFormed) (negative : Bool)
    (hreal : (n.fraction.isNone && n.exponent.isNone) = false) (hsize : n.significand < 2 ^ 64) :
    assemble negative (octets n.whole) (n.fraction.map octets) n.exponent =
      scale negative n.significand n.power := by
  have hsplit : n.significand =
      Nat.ofDigitChars 10 (n.fraction.getD []) (Nat.ofDigitChars 10 n.whole 0) :=
    Nat.ofDigitChars_append 0
  have hle := le_ofDigitChars (n.fraction.getD []) (Nat.ofDigitChars 10 n.whole 0)
  have hwhole : Nat.ofDigitChars 10 n.whole 0 < 2 ^ 64 := by omega
  have habsorb := absorb_of_lt h.fraction_digits (n := Nat.ofDigitChars 10 n.whole 0)
    (by omega)
  rw [assemble_eq_scale h negative hreal rfl hwhole habsorb.symm, ← hsplit]
  simp only [List.length_nil, Int.natCast_zero, zero_add]

/-- What a numeral with a short whole part is read as is at most its value. -/
theorem exists_assemble_le {n : Numeral} (h : n.WellFormed) (negative : Bool)
    (hreal : (n.fraction.isNone && n.exponent.isNone) = false) (hshort : n.whole.length ≤ 16) :
    ∃ significand e, assemble negative (octets n.whole) (n.fraction.map octets) n.exponent =
        scale negative significand e ∧
      significand < 2 ^ 64 ∧ (significand : ℚ) * 10 ^ e ≤ n.value := by
  obtain ⟨w, hw⟩ : ∃ w, w = Nat.ofDigitChars 10 n.whole 0 := ⟨_, rfl⟩
  obtain ⟨a, ha⟩ : ∃ a, a = absorb w (octets (n.fraction.getD [])) := ⟨_, rfl⟩
  have hsize : w < 2 ^ 64 := calc
    w < (0 + 1) * 10 ^ n.whole.length := hw ▸ ofDigitChars_lt h.whole_digits 0
    _ ≤ 10 ^ 16 := by
      rw [Nat.zero_add, Nat.one_mul]
      exact Nat.pow_le_pow_right (by decide) hshort
    _ < 2 ^ 64 := by decide
  obtain ⟨hfits, hle⟩ := absorb_le h.fraction_digits hsize
  rw [← ha] at hfits hle
  refine ⟨a.1, a.2.length + n.power, assemble_eq_scale h negative hreal hw hsize ha, hfits, ?_⟩
  have hcast : (a.1 : ℚ) * 10 ^ a.2.length ≤ n.significand := by
    rw [significand, Nat.ofDigitChars_append, ← hw]
    exact_mod_cast hle
  rw [value_eq, zpow_add₀ (by norm_num), zpow_natCast, ← mul_assoc]
  gcongr

end Numeral

/-- Whether a number was read that is a float, with nothing behind it. -/
def isRealAlone : Except ReadError (Number × List UInt8) → Bool
  | .ok (.real _, []) => true
  | _ => false

/-- The eight greatest floats are too close to the end of the range for the general bound. -/
theorem isRealAlone_nearEnd : ∀ j < 8, ∀ negative,
    isRealAlone (number negative (octets (((Decimal.Interval.nearEnd j).shortest numerals.tie 40
      ((969 + 55) * 30103 / 100000 + 2)).chars numerals))) = true := by
  decide +kernel

theorem exists_assemble_ofFloat (x : FiniteFloat) (negative : Bool) :
    let n := Numeral.ofDecimal (Decimal.ofFloat numerals.tie x.val)
    ∃ y, assemble negative (octets n.whole) (n.fraction.map octets) n.exponent =
      .ok (.real y) := by
  intro n
  have hwell : n.WellFormed :=
    Numeral.wellFormed_ofDecimal Decimal.exponent_of_coefficient_eq_zero
  rcases Decimal.value_ofFloat_le numerals.tie x.isFinite with hle | ⟨j, hj, heq⟩
  · obtain ⟨hreal, hshort⟩ := Numeral.ofDecimal_shape (Decimal.ofFloat numerals.tie x.val)
    obtain ⟨significand, e, hscale, hsize, hvalue⟩ :=
      Numeral.exists_assemble_le hwell negative hreal hshort
    rw [Numeral.value_ofDecimal] at hvalue
    rw [hscale]
    exact exists_scale_eq negative hsize (hvalue.trans hle)
  · have hends : Ends [] := by
      intro b hb
      cases hb
    have hnumber := Numeral.number_octets hwell negative hends
    have hall := isRealAlone_nearEnd j hj negative
    rw [List.append_nil, Numeral.chars_ofDecimal, heq] at hnumber
    rw [hnumber] at hall
    cases hassemble : assemble negative (octets n.whole) (n.fraction.map octets) n.exponent with
    | error e =>
      rw [hassemble] at hall
      cases hall
    | ok a =>
      rw [hassemble] at hall
      cases a with
      | integer i => cases hall
      | real y => exact ⟨y, rfl⟩

/-- **Floats.** What is printed of a float behind its sign is read back as a float. -/
theorem number_float (x : FiniteFloat) (negative : Bool) :
    ∃ y, ∀ rest, Ends rest →
      number negative (octets ((Decimal.ofFloat numerals.tie x.val).chars numerals) ++ rest) =
        .ok (.real y, rest) := by
  have hwell : (Numeral.ofDecimal (Decimal.ofFloat numerals.tie x.val)).WellFormed :=
    Numeral.wellFormed_ofDecimal Decimal.exponent_of_coefficient_eq_zero
  obtain ⟨y, hy⟩ := exists_assemble_ofFloat x negative
  refine ⟨y, ?_⟩
  intro rest hrest
  have hnumber := Numeral.number_octets hwell negative hrest
  rw [Numeral.chars_ofDecimal, hy] at hnumber
  exact hnumber

end Gelf.Json
