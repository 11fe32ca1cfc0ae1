import Gelf.Deflate.Codes
import Gelf.Proofs.Deflate.Bits
import Mathlib.Algebra.BigOperators.Group.List.Basic

/-!
# Reading symbols by their codes

Where the codes of all symbols have room side by side, each symbol is read from its own code. Read
bit by bit, a code stays behind all the shorter ones, and among those of its own length it stands
where its symbol stands among the symbols of that length.
-/

namespace Gelf.Deflate

/-! ### The room that codes take -/

/-- How many numbers of `n` bits begin with one code of a given length. -/
def codeShare (n length : Nat) : Nat :=
  if length = 0 ∨ n < length then 0 else 2 ^ (n - length)

theorem codeShare_succ (n length : Nat) :
    codeShare (n + 1) length = 2 * codeShare n length + if length = n + 1 then 1 else 0 := by
  unfold codeShare
  rcases Nat.lt_trichotomy length (n + 1) with h | rfl | h
  · by_cases hzero : length = 0
    · simp [hzero]
    · rw [if_neg (by omega), if_neg (by omega), if_neg (by omega), Nat.succ_sub (by omega),
        Nat.pow_succ]
      omega
  · simp
  · rw [if_pos (by omega), if_pos (by omega), if_neg (by omega)]

theorem codeSpace_eq_sum (lengths : List Nat) (n : Nat) :
    codeSpace lengths n = (lengths.map (codeShare n)).sum := by
  induction n with
  | zero =>
    have hnone (length : Nat) : codeShare 0 length = 0 := by
      unfold codeShare
      rw [if_pos (by omega)]
    rw [codeSpace, funext hnone, List.map_const', List.sum_replicate, nsmul_zero]
  | succ n ih =>
    rw [codeSpace, ih]
    clear ih
    induction lengths with
    | nil => rfl
    | cons length lengths ih =>
      simp only [List.map_cons, List.sum_cons, List.count_cons, beq_iff_eq, codeShare_succ, ← ih]
      omega

theorem codeSpace_succ (lengths : List Nat) (n : Nat) :
    codeSpace lengths (n + 1) = 2 * codeSpace lengths n + lengths.count (n + 1) :=
  rfl

theorem pow_mul_codeSpace_le (lengths : List Nat) {n m : Nat} (h : n ≤ m) :
    2 ^ (m - n) * codeSpace lengths n ≤ codeSpace lengths m := by
  induction m, h using Nat.le_induction with
  | base => simp
  | succ m h ih =>
    rw [Nat.succ_sub h, Nat.pow_succ, codeSpace_succ]
    have htwice := Nat.mul_le_mul_left 2 ih
    rw [← Nat.mul_assoc, Nat.mul_comm 2 (2 ^ _)] at htwice
    omega

/-- The lengths of a prefix code. None is longer than a limit, and all codes have room side by
side. -/
structure IsPrefixCode (limit : Nat) (lengths : List Nat) : Prop where
  le_limit : ∀ length ∈ lengths, length ≤ limit
  space_le : codeSpace lengths limit ≤ 2 ^ limit

theorem IsPrefixCode.codeSpace_le {limit : Nat} {lengths : List Nat}
    (h : IsPrefixCode limit lengths) {n : Nat} (hn : n ≤ limit) : codeSpace lengths n ≤ 2 ^ n := by
  have hspace := (pow_mul_codeSpace_le lengths hn).trans h.space_le
  rw [← Nat.sub_add_cancel hn, Nat.pow_add, Nat.add_sub_cancel] at hspace
  exact Nat.le_of_mul_le_mul_left hspace (Nat.two_pow_pos _)

/-! ### The code of a symbol -/

theorem exists_getElem?_eq_succ {lengths : List Nat} {symbol : Nat}
    (h : lengths.getD symbol 0 ≠ 0) : ∃ n, lengths[symbol]? = some (n + 1) := by
  rw [List.getD_eq_getElem?_getD] at h
  cases hlength : lengths[symbol]? with
  | none =>
    rw [hlength] at h
    exact absurd rfl h
  | some length =>
    rw [hlength] at h
    obtain ⟨n, rfl⟩ := Nat.exists_eq_succ_of_ne_zero h
    exact ⟨n, rfl⟩

theorem getD_codesOf {lengths : List Nat} {symbol n : Nat} (h : lengths[symbol]? = some (n + 1)) :
    (codesOf lengths).getD symbol [] = codeBits (n + 1) (codeNumber lengths symbol n) := by
  simp [codesOf, Array.getD_eq_getD_getElem?, List.getElem?_zipIdx, h]

theorem length_getD_codesOf_pos {lengths : List Nat} {symbol : Nat}
    (h : lengths.getD symbol 0 ≠ 0) : 0 < ((codesOf lengths).getD symbol []).length := by
  obtain ⟨n, hlength⟩ := exists_getElem?_eq_succ h
  rw [getD_codesOf hlength, length_codeBits]
  exact Nat.succ_pos n

/-- A code lies behind the shorter ones. -/
theorem pow_mul_codeSpace_le_codeNumber (lengths : List Nat) (symbol : Nat) {m n : Nat}
    (h : m ≤ n) : 2 ^ (n + 1 - m) * codeSpace lengths m ≤ codeNumber lengths symbol n := by
  rw [Nat.succ_sub h, Nat.pow_succ, Nat.mul_comm _ 2, Nat.mul_assoc, codeNumber]
  have hspace := pow_mul_codeSpace_le lengths h
  omega

theorem take_append_cons_drop {lengths : List Nat} {symbol n : Nat}
    (h : lengths[symbol]? = some n) :
    lengths.take symbol ++ n :: lengths.drop (symbol + 1) = lengths := by
  obtain ⟨hlt, rfl⟩ := List.getElem?_eq_some_iff.1 h
  rw [List.getElem_cons_drop, List.take_append_drop]

theorem codeNumber_lt {lengths : List Nat} {symbol n : Nat} (h : lengths[symbol]? = some (n + 1)) :
    codeNumber lengths symbol n < codeSpace lengths (n + 1) := by
  have hcount := congrArg (List.count (n + 1)) (take_append_cons_drop h)
  rw [List.count_append, List.count_cons_self] at hcount
  rw [codeNumber, codeSpace_succ]
  omega

/-! ### Reading a code -/

/-- The first bits of a code, and those with the next bit behind them. -/
theorem two_mul_div_add_testBit (code k : Nat) :
    2 * (code / 2 ^ (k + 1)) + (code.testBit k).toNat = code / 2 ^ k := by
  rw [Nat.testBit_eq_decide_div_mod_eq, Nat.pow_succ, ← Nat.div_div_eq_div_mul, Nat.add_comm]
  exact toNat_mod_two_add _

namespace Code

theorem ofLength_eq (lengths : List Nat) (n : Nat) : ofLength lengths n = lengths.idxsOf n := by
  rw [ofLength, List.idxsOf_eq_filterMap_zipIdx]
  congr 1
  funext ⟨length, symbol⟩
  by_cases h : length = n
  · simp [h]
  · simp [h, beq_false_of_ne h]

theorem length_ofLength (lengths : List Nat) (n : Nat) :
    (ofLength lengths n).length = lengths.count n := by
  rw [ofLength_eq, List.length_idxsOf]

/-- Symbols with codes of one length stand in their order. -/
theorem getElem?_ofLength {lengths : List Nat} {symbol n : Nat} (h : lengths[symbol]? = some n) :
    (ofLength lengths n)[(lengths.take symbol).count n]? = some symbol := by
  obtain ⟨hlt, -⟩ := List.getElem?_eq_some_iff.1 h
  have hsplit := congrArg (List.idxsOf n) (take_append_cons_drop h)
  rw [List.idxsOf_append, List.idxsOf_cons, if_pos (beq_self_eq_true n), Nat.zero_add,
    List.length_take_of_le hlt.le] at hsplit
  rw [ofLength_eq, ← hsplit, List.getElem?_append_right List.length_idxsOf.le, List.length_idxsOf,
    Nat.sub_self, List.getElem?_cons_zero]

/-- The last bits of a code are read where its first bits were. The code stands behind all shorter
ones, and among those of its own length at the place of its symbol. -/
theorem reads_symbolFrom {lengths : List Nat} {symbol code n i : Nat}
    (hbehind : ∀ m ≤ n, 2 ^ (n + 1 - m) * codeSpace lengths m ≤ code)
    (hcode : code = 2 * codeSpace lengths n + i)
    (hsymbol : (ofLength lengths (n + 1))[i]? = some symbol) {j k count : Nat}
    (hk : j + k = n) (hcount : k < count) :
    Reads (symbolFrom ((List.range' j count).map fun n => (ofLength lengths (n + 1)).toArray)
      (2 * codeSpace lengths j) (code / 2 ^ (k + 1))) (codeBits (k + 1) code) symbol := by
  -- Each bit but the last leaves the code behind those that end with the bit.
  induction k generalizing j count with
  | zero =>
    obtain ⟨count, rfl⟩ := Nat.exists_eq_succ_of_ne_zero (Nat.ne_zero_of_lt hcount)
    obtain rfl : j = n := hk
    have hlt := (List.getElem?_eq_some_iff.1 hsymbol).1
    have hindex : code - 2 * codeSpace lengths j = i := by omega
    rw [List.range'_succ, List.map_cons, symbolFrom, codeBits]
    refine (Reads.bit _).bind ?_
    dsimp only
    rw [two_mul_div_add_testBit, Nat.pow_zero, Nat.div_one,
      if_pos (by rw [List.size_toArray]; omega), hindex]
    exact .lift (List.getElem?_toArray.trans hsymbol)
  | succ k ih =>
    obtain ⟨count, rfl⟩ := Nat.exists_eq_succ_of_ne_zero (Nat.ne_zero_of_lt hcount)
    have hspace : codeSpace lengths (j + 1) ≤ code / 2 ^ (k + 1) := by
      have hle := hbehind (j + 1) (by omega)
      rw [show n + 1 - (j + 1) = k + 1 by omega, Nat.mul_comm] at hle
      exact (Nat.le_div_iff_mul_le (Nat.two_pow_pos _)).2 hle
    rw [List.range'_succ, List.map_cons, symbolFrom, codeBits]
    refine (Reads.bit _).bind ?_
    dsimp only
    rw [two_mul_div_add_testBit, List.size_toArray, length_ofLength, ← codeSpace_succ,
      if_neg hspace.not_gt]
    exact ih (by omega) (Nat.lt_of_succ_lt_succ hcount)

/-- **A symbol is read from its code.** -/
theorem reads_symbol {limit : Nat} {lengths : List Nat} (h : IsPrefixCode limit lengths)
    (hlimit : limit ≤ 15) {symbol : Nat} (hused : lengths.getD symbol 0 ≠ 0) :
    Reads (ofLengths lengths).symbol ((codesOf lengths).getD symbol []) symbol := by
  obtain ⟨n, hlength⟩ := exists_getElem?_eq_succ hused
  have hn : n + 1 ≤ limit := h.le_limit _ (List.mem_of_getElem? hlength)
  have hlt : codeNumber lengths symbol n < 2 ^ (n + 1) :=
    (codeNumber_lt hlength).trans_le (h.codeSpace_le hn)
  have hread := reads_symbolFrom (fun m hm => pow_mul_codeSpace_le_codeNumber lengths symbol hm)
    rfl (getElem?_ofLength hlength) (Nat.zero_add n) (show n < 15 by omega)
  rw [Nat.div_eq_of_lt hlt] at hread
  rw [getD_codesOf hlength, Code.symbol, ofLengths, List.range_eq_range']
  exact hread

end Code

end Gelf.Deflate
