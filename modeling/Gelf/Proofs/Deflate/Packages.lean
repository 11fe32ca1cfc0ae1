import Gelf.Deflate.Lengths
import Gelf.Proofs.Deflate.Codes
import Mathlib.Algebra.BigOperators.Ring.Finset
import Mathlib.Algebra.Order.BigOperators.Group.Finset
import Mathlib.Data.List.Perm.Subperm
import Mathlib.Tactic.Ring

/-!
# Packages give a prefix code

A symbol is in a level of packages at most once for each time that packages were formed. Each package
that is taken out of a level makes room for codes, whatever it weighs. The cheap packages are so many
that every symbol is in one of them and all codes have room side by side.
-/

namespace Gelf.Deflate

open scoped BigOperators

/-! ### Counting symbols -/

theorem getElem?_foldl_modify (symbols : List Nat) (counts : Array Nat) (x : Nat) :
    (symbols.foldl (fun counts symbol => counts.modify symbol (· + 1)) counts)[x]? =
      counts[x]?.map (· + symbols.count x) := by
  induction symbols generalizing counts with
  | nil => simp
  | cons symbol symbols ih =>
    rw [List.foldl_cons, ih, Array.getElem?_modify, List.count_cons]
    by_cases h : symbol = x
    · simp [h, Nat.add_comm]
    · simp [h]

theorem tally_eq_map (size : Nat) (symbols : List Nat) :
    tally size symbols = (List.range size).map (symbols.count ·) := by
  apply List.ext_getElem?
  intro x
  rw [tally, Array.getElem?_toList, getElem?_foldl_modify, List.getElem?_map,
    Array.getElem?_replicate]
  by_cases h : x < size
  · simp [h]
  · simp [h]

namespace Package

/-! ### The symbols of packages -/

/-- Each package has one symbol, and no two have the same. -/
structure AreSingle (packages : List Package) : Prop where
  length_symbols : ∀ package ∈ packages, package.symbols.length = 1
  nodup : (packages.flatMap symbols).Nodup

theorem AreSingle.count_le_one {singles taken : List Package} (h : AreSingle singles)
    (htaken : taken.Sublist singles) (x : Nat) : (taken.flatMap symbols).count x ≤ 1 :=
  List.nodup_iff_count_le_one.1 (h.nodup.sublist (htaken.flatMap _)) x

theorem AreSingle.length_flatMap {singles taken : List Package} (h : AreSingle singles)
    (htaken : taken.Sublist singles) : (taken.flatMap symbols).length = taken.length := by
  rw [List.length_flatMap, List.map_congr_left fun package hmem =>
    h.length_symbols package (htaken.subset hmem)]
  simp

theorem AreSingle.card_toFinset {singles : List Package} (h : AreSingle singles) :
    (singles.flatMap symbols).toFinset.card = singles.length := by
  rw [List.toFinset_card_of_nodup h.nodup, h.length_flatMap (.refl _)]

/-- Each single package that is taken counts for its symbol. -/
theorem AreSingle.sum_count_eq {singles taken : List Package} (h : AreSingle singles)
    (htaken : taken.Sublist singles) :
    ∑ x ∈ (singles.flatMap symbols).toFinset, (taken.flatMap symbols).count x = taken.length := by
  have hsum := Multiset.sum_count_eq_card (m := taken.flatMap symbols) fun x hx =>
    List.mem_toFinset.2 ((htaken.flatMap symbols).subset hx)
  rw [Multiset.coe_card, h.length_flatMap htaken] at hsum
  simpa only [Multiset.coe_count] using hsum

/-! ### Levels -/

/-- Packages among the pairs of a level are twice as many packages of the level. -/
theorem exists_sublist_of_sublist_pairs {packages taken : List Package}
    (h : taken.Sublist (pairs packages)) :
    ∃ halves : List Package, halves.Sublist packages ∧ halves.length = 2 * taken.length ∧
      halves.flatMap symbols = taken.flatMap symbols := by
  induction packages using pairs.induct generalizing taken with
  | case1 a b rest ih =>
    rw [pairs] at h
    rcases List.sublist_cons_iff.1 h with htail | ⟨taken, rfl, htail⟩
    · obtain ⟨halves, hsub, hlength, hsymbols⟩ := ih htail
      exact ⟨halves, (hsub.cons b).cons a, hlength, hsymbols⟩
    · obtain ⟨halves, hsub, hlength, hsymbols⟩ := ih htail
      refine ⟨a :: b :: halves, (hsub.cons_cons b).cons_cons a, ?_, ?_⟩
      · simp only [List.length_cons, hlength]
        omega
      · simp [hsymbols]
  | case2 packages hnone =>
    rw [pairs] at h
    · obtain rfl := List.sublist_nil.1 h
      exact ⟨[], List.nil_sublist _, rfl, rfl⟩
    · exact hnone

/-- Packages of a level are single ones and packages of the level before, taken twice. -/
theorem exists_of_subperm_level {singles taken : List Package} {n : Nat}
    (h : taken.Subperm (level singles (n + 1))) :
    ∃ alone halves : List Package, alone.Sublist singles ∧ halves.Sublist (level singles n) ∧
      2 * taken.length = 2 * alone.length + halves.length ∧
      (taken.flatMap symbols).Perm (alone.flatMap symbols ++ halves.flatMap symbols) := by
  obtain ⟨sorted, hperm, hsub⟩ := h.trans (List.merge_perm_append _).subperm
  obtain ⟨alone, joined, rfl, halone, hjoined⟩ := List.sublist_append_iff.1 hsub
  obtain ⟨halves, hhalves, hlength, hsymbols⟩ := exists_sublist_of_sublist_pairs hjoined
  refine ⟨alone, halves, halone, hhalves, ?_, ?_⟩
  · rw [← hperm.length_eq, List.length_append, hlength]
    omega
  · rw [hsymbols, ← List.flatMap_append]
    exact (hperm.flatMap_right _).symm

theorem length_pairs (packages : List Package) :
    (pairs packages).length = packages.length / 2 := by
  induction packages using pairs.induct with
  | case1 a b rest ih =>
    rw [pairs, List.length_cons, ih]
    simp only [List.length_cons]
    omega
  | case2 packages hnone =>
    rw [pairs]
    · match packages with
      | [] => rfl
      | [_] => simp
      | a :: b :: rest => exact absurd rfl (hnone a b rest)
    · exact hnone

/-- What a level misses of twice the single packages is halved each time. -/
theorem le_length_level {singles : List Package} {n d : Nat}
    (h : 2 * singles.length ≤ d * 2 ^ n) : 2 * singles.length ≤ (level singles n).length + d := by
  induction n generalizing d with
  | zero => simpa [level] using h
  | succ n ih =>
    have hbefore := ih (h.trans_eq (by ring : d * 2 ^ (n + 1) = 2 * d * 2 ^ n))
    rw [level, (List.merge_perm_append _).length_eq, List.length_append, length_pairs]
    omega

section

variable {singles taken : List Package} {n : Nat}

theorem count_le_of_subperm_level (h : AreSingle singles)
    (htaken : taken.Subperm (level singles n)) (x : Nat) : (taken.flatMap symbols).count x ≤ n := by
  induction n generalizing taken with
  | zero =>
    obtain rfl := List.subperm_nil.1 htaken
    exact Nat.zero_le 0
  | succ n ih =>
    obtain ⟨alone, halves, halone, hhalves, -, hsymbols⟩ := exists_of_subperm_level htaken
    rw [hsymbols.count_eq, List.count_append, Nat.add_comm]
    exact Nat.add_le_add (ih hhalves.subperm) (h.count_le_one halone x)

theorem subset_of_subperm_level (htaken : taken.Subperm (level singles n)) :
    taken.flatMap symbols ⊆ singles.flatMap symbols := by
  induction n generalizing taken with
  | zero =>
    obtain rfl := List.subperm_nil.1 htaken
    exact List.nil_subset _
  | succ n ih =>
    obtain ⟨alone, halves, halone, hhalves, -, hsymbols⟩ := exists_of_subperm_level htaken
    exact List.Subset.trans hsymbols.subset
      (List.append_subset.2 ⟨(halone.flatMap _).subset, ih hhalves.subperm⟩)

/-! ### The room of codes -/

/-- How many numbers of `n` bits begin with a code, when the code of a symbol is as long as the
number of packages taken that contain it. -/
def room (n : Nat) (singles taken : List Package) : Nat :=
  ∑ x ∈ (singles.flatMap symbols).toFinset, 2 ^ (n - (taken.flatMap symbols).count x)

/-- A code that was made longer by one bit gives half of its room free. -/
theorem pow_sub_add_le {alone before : Nat} (halone : alone ≤ 1) (hbefore : before ≤ n) :
    2 ^ (n + 1 - (alone + before)) + alone * 2 ^ n ≤ 2 ^ n + 2 ^ (n - before) := by
  have hle : 2 ^ (n - before) ≤ 2 ^ n := Nat.pow_le_pow_right Nat.two_pos (Nat.sub_le n before)
  rcases Nat.le_one_iff_eq_zero_or_eq_one.1 halone with rfl | rfl
  · rw [Nat.zero_add, Nat.succ_sub hbefore, Nat.pow_succ]
    omega
  · rw [Nat.add_comm 1, Nat.add_sub_add_right]
    omega

theorem AreSingle.room_succ_add_le (h : AreSingle singles) {alone halves : List Package}
    (halone : alone.Sublist singles) (hhalves : halves.Subperm (level singles n))
    (hsymbols : (taken.flatMap symbols).Perm (alone.flatMap symbols ++ halves.flatMap symbols)) :
    room (n + 1) singles taken + alone.length * 2 ^ n ≤
      singles.length * 2 ^ n + room n singles halves := by
  have hsum := Finset.sum_le_sum fun x (_ : x ∈ (singles.flatMap symbols).toFinset) =>
    pow_sub_add_le (h.count_le_one halone x) (count_le_of_subperm_level h hhalves x)
  rw [Finset.sum_add_distrib, Finset.sum_add_distrib, ← Finset.sum_mul, h.sum_count_eq halone,
    Finset.sum_const, h.card_toFinset, Nat.nsmul_eq_mul] at hsum
  simpa only [room, hsymbols.count_eq, List.count_append] using hsum

/-- The more packages are taken out of a level, the less room is taken by codes. -/
theorem AreSingle.length_mul_add_room_le (h : AreSingle singles)
    (htaken : taken.Subperm (level singles n)) :
    taken.length * 2 ^ n + 2 * room n singles taken ≤ 2 * singles.length * 2 ^ n := by
  induction n generalizing taken with
  | zero =>
    obtain rfl := List.subperm_nil.1 htaken
    simp [room, h.card_toFinset]
  | succ n ih =>
    obtain ⟨alone, halves, halone, hhalves, hlength, hsymbols⟩ := exists_of_subperm_level htaken
    have hbefore := ih hhalves.subperm
    have hroom := h.room_succ_add_le halone hhalves.subperm hsymbols
    calc taken.length * 2 ^ (n + 1) + 2 * room (n + 1) singles taken
      _ = 2 * taken.length * 2 ^ n + 2 * room (n + 1) singles taken := by ring
      _ = 2 * (room (n + 1) singles taken + alone.length * 2 ^ n) + halves.length * 2 ^ n := by
        rw [hlength]
        ring
      _ ≤ 2 * (singles.length * 2 ^ n + room n singles halves) + halves.length * 2 ^ n := by gcongr
      _ = 2 * singles.length * 2 ^ n + (halves.length * 2 ^ n + 2 * room n singles halves) := by ring
      _ ≤ 2 * singles.length * 2 ^ n + 2 * singles.length * 2 ^ n := by gcongr
      _ = 2 * singles.length * 2 ^ (n + 1) := by ring

end

/-! ### Cheap packages -/

/-- Packages that give each single symbol a code of up to `n` bits, all beside each other. -/
structure AreCheap (n : Nat) (singles cheap : List Package) : Prop where
  count_le : ∀ x, (cheap.flatMap symbols).count x ≤ n
  subset : cheap.flatMap symbols ⊆ singles.flatMap symbols
  superset : singles.flatMap symbols ⊆ cheap.flatMap symbols
  room_le : room n singles cheap ≤ 2 ^ n

section

variable {singles cheap : List Package} {n : Nat}

theorem AreSingle.areCheap_self (h : AreSingle singles) (halone : singles.length = 1)
    (hn : 0 < n) : AreCheap n singles singles where
  count_le x := (h.count_le_one (.refl _) x).trans hn
  subset := List.Subset.refl _
  superset := List.Subset.refl _
  room_le := by
    obtain ⟨x, hx⟩ := Finset.card_eq_one.1 (h.card_toFinset.trans halone)
    rw [room, hx, Finset.sum_singleton]
    exact Nat.pow_le_pow_right Nat.two_pos (Nat.sub_le _ _)

/-- A symbol without a code takes all the room, so that none is left for a second symbol. -/
theorem AreSingle.mem_of_room_le (h : AreSingle singles) (halone : singles.length ≠ 1)
    (hroom : room n singles cheap ≤ 2 ^ n) {x : Nat} (hx : x ∈ singles.flatMap symbols) :
    x ∈ cheap.flatMap symbols := by
  by_contra hnone
  have hcard : 1 < (singles.flatMap symbols).toFinset.card := by
    have hpos := List.length_pos_of_mem hx
    rw [h.length_flatMap (.refl _)] at hpos
    rw [h.card_toFinset]
    omega
  obtain ⟨y, hy, hne⟩ := Finset.exists_mem_ne hcard x
  have hlt : 2 ^ (n - (cheap.flatMap symbols).count x) < room n singles cheap :=
    Finset.single_lt_sum (f := fun x => 2 ^ (n - (cheap.flatMap symbols).count x)) hne
      (List.mem_toFinset.2 hx) hy (Nat.two_pow_pos _) fun _ _ _ => Nat.zero_le _
  rw [List.count_eq_zero_of_not_mem hnone] at hlt
  exact absurd hroom hlt.not_ge

theorem AreSingle.areCheap_of_length (h : AreSingle singles) (halone : singles.length ≠ 1)
    (hcheap : cheap.Subperm (level singles n)) (hlength : 2 * singles.length ≤ cheap.length + 2) :
    AreCheap n singles cheap := by
  have hroom : room n singles cheap ≤ 2 ^ n := by
    have hle := h.length_mul_add_room_le hcheap
    have hmul := Nat.mul_le_mul_right (2 ^ n) hlength
    rw [Nat.add_mul] at hmul
    omega
  exact ⟨count_le_of_subperm_level h hcheap, subset_of_subperm_level hcheap,
    fun _ hx => h.mem_of_room_le halone hroom hx, hroom⟩

end

/-! ### The single symbols -/

theorem flatMap_singles_perm (frequencies : List Nat) :
    ((singles frequencies).flatMap symbols).Perm (frequencies.findIdxs (· ≠ 0)) := by
  rw [singles, List.findIdxs_eq_filterMap_zipIdx]
  refine ((List.mergeSort_perm _ _).flatMap_right _).trans (.of_eq ?_)
  induction frequencies.zipIdx with
  | nil => rfl
  | cons pair pairs ih =>
    obtain ⟨weight, symbol⟩ := pair
    by_cases h : weight = 0
    · simpa [h] using ih
    · simpa [h] using ih

theorem areSingle_singles (frequencies : List Nat) : AreSingle (singles frequencies) where
  length_symbols package hmem := by
    rw [singles, List.mem_mergeSort, List.mem_filterMap] at hmem
    obtain ⟨⟨weight, symbol⟩, -, heq⟩ := hmem
    by_cases h : weight = 0
    · simp [h] at heq
    · simp only [h, if_false, Option.some.injEq] at heq
      rw [← heq]
      rfl
  nodup := (flatMap_singles_perm frequencies).nodup_iff.2 List.nodup_findIdxs

theorem mem_flatMap_singles {frequencies : List Nat} {x : Nat} :
    x ∈ (singles frequencies).flatMap symbols ↔ frequencies.getD x 0 ≠ 0 := by
  rw [(flatMap_singles_perm frequencies).mem_iff, List.mem_findIdxs_iff_exists_getElem_pos,
    List.getD_eq_getElem?_getD]
  by_cases h : x < frequencies.length
  · simp [h]
  · simp [h]

theorem length_singles (frequencies : List Nat) :
    (singles frequencies).length = frequencies.countP (· ≠ 0) := by
  rw [← (areSingle_singles frequencies).length_flatMap (.refl _),
    (flatMap_singles_perm frequencies).length_eq, List.length_findIdxs]

end Package

open Package

/-! ### Code lengths -/

theorem exists_cheap {limit : Nat} {frequencies : List Nat} (hlimit : 0 < limit)
    (hused : frequencies.countP (· ≠ 0) ≤ 2 ^ limit) :
    ∃ cheap, AreCheap limit (singles frequencies) cheap ∧ codeLengths limit frequencies =
      (List.range frequencies.length).map ((cheap.flatMap symbols).count ·) := by
  have hsingles := areSingle_singles frequencies
  rw [← length_singles] at hused
  by_cases halone : (singles frequencies).length = 1
  · refine ⟨_, hsingles.areCheap_self halone hlimit, ?_⟩
    rw [codeLengths, if_pos halone, tally_eq_map]
  · have hlevel := le_length_level (Nat.mul_le_mul_left 2 hused)
    have htake := List.take_sublist (2 * (singles frequencies).length - 2)
      (level (singles frequencies) limit)
    refine ⟨_, hsingles.areCheap_of_length halone htake.subperm ?_, ?_⟩
    · rw [List.length_take_of_le (by omega)]
      omega
    · rw [codeLengths, if_neg halone, tally_eq_map]

theorem mem_range_of_mem_flatMap_singles {frequencies : List Nat} {x : Nat}
    (h : x ∈ (singles frequencies).flatMap symbols) : x ∈ Finset.range frequencies.length := by
  rw [mem_flatMap_singles, List.getD_eq_getElem?_getD] at h
  by_contra hout
  rw [Finset.mem_range, Nat.not_lt] at hout
  rw [List.getElem?_eq_none hout] at h
  exact h rfl

section

variable {limit : Nat} {frequencies : List Nat}

theorem codeSpace_codeLengths {cheap : List Package}
    (hcheap : AreCheap limit (singles frequencies) cheap)
    (heq : codeLengths limit frequencies =
      (List.range frequencies.length).map ((cheap.flatMap symbols).count ·)) :
    codeSpace (codeLengths limit frequencies) limit = room limit (singles frequencies) cheap := by
  have hsum : codeSpace (codeLengths limit frequencies) limit =
      ∑ x ∈ Finset.range frequencies.length,
        codeShare limit ((cheap.flatMap symbols).count x) := by
    rw [codeSpace_eq_sum, heq, List.map_map]
    rfl
  rw [hsum, room, ← Finset.sum_subset fun x hx =>
    mem_range_of_mem_flatMap_singles (List.mem_toFinset.1 hx)]
  · refine Finset.sum_congr rfl fun x hx => ?_
    have hpos := List.count_pos_iff.2 (hcheap.superset (List.mem_toFinset.1 hx))
    have hle := hcheap.count_le x
    rw [codeShare, if_neg (by omega)]
  · intro x _ hx
    have hnone : x ∉ cheap.flatMap symbols := fun hmem =>
      hx (List.mem_toFinset.2 (hcheap.subset hmem))
    rw [List.count_eq_zero_of_not_mem hnone, codeShare, if_pos (.inl rfl)]

variable (hlimit : 0 < limit) (hused : frequencies.countP (· ≠ 0) ≤ 2 ^ limit)
include hlimit hused

/-- Code lengths for so many symbols as there are codes of the longest length are those of a prefix
code. -/
theorem isPrefixCode_codeLengths : IsPrefixCode limit (codeLengths limit frequencies) := by
  obtain ⟨cheap, hcheap, heq⟩ := exists_cheap hlimit hused
  refine ⟨fun length hmem => ?_, (codeSpace_codeLengths hcheap heq).trans_le hcheap.room_le⟩
  rw [heq] at hmem
  obtain ⟨x, -, rfl⟩ := List.mem_map.1 hmem
  exact hcheap.count_le x

theorem length_codeLengths : (codeLengths limit frequencies).length = frequencies.length := by
  obtain ⟨cheap, -, heq⟩ := exists_cheap hlimit hused
  rw [heq, List.length_map, List.length_range]

/-- Every symbol that occurs has a code. -/
theorem getD_codeLengths_ne_zero {symbol : Nat} (h : frequencies.getD symbol 0 ≠ 0) :
    (codeLengths limit frequencies).getD symbol 0 ≠ 0 := by
  obtain ⟨cheap, hcheap, heq⟩ := exists_cheap hlimit hused
  have hmem := mem_flatMap_singles.2 h
  have hlt := Finset.mem_range.1 (mem_range_of_mem_flatMap_singles hmem)
  have hpos := List.count_pos_iff.2 (hcheap.superset hmem)
  rw [heq, List.getD_eq_getElem?_getD, List.getElem?_map, List.getElem?_range hlt]
  exact hpos.ne'

end

section

variable {limit size : Nat} (hlimit : 0 < limit) (hsize : size ≤ 2 ^ limit) (symbols : List Nat)

theorem length_tally (size : Nat) (symbols : List Nat) : (tally size symbols).length = size := by
  rw [tally_eq_map, List.length_map, List.length_range]

include hsize

theorem countP_tally_le (p : Nat → Bool) : (tally size symbols).countP p ≤ 2 ^ limit :=
  List.countP_le_length.trans ((length_tally size symbols).trans_le hsize)

include hlimit

theorem isPrefixCode_codeLengths_tally :
    IsPrefixCode limit (codeLengths limit (tally size symbols)) :=
  isPrefixCode_codeLengths hlimit (countP_tally_le hsize symbols _)

theorem length_codeLengths_tally : (codeLengths limit (tally size symbols)).length = size := by
  rw [length_codeLengths hlimit (countP_tally_le hsize symbols _), length_tally]

theorem getD_codeLengths_tally_ne_zero {symbols : List Nat} {symbol : Nat}
    (hmem : symbol ∈ symbols) (hlt : symbol < size) :
    (codeLengths limit (tally size symbols)).getD symbol 0 ≠ 0 := by
  apply getD_codeLengths_ne_zero hlimit (countP_tally_le hsize symbols _)
  rw [tally_eq_map, List.getD_eq_getElem?_getD, List.getElem?_map, List.getElem?_range hlt]
  exact (List.count_pos_iff.2 hmem).ne'

end

end Gelf.Deflate
