import Gelf.Deflate.Encoding
import Gelf.Proofs.Deflate.Packages
import Mathlib.Data.List.TakeWhile

/-!
# Reading the codes of a block

The code lengths in front of a block are cut into pieces, and each piece gives back the lengths it
stands for. The pieces have a code of their own, whose lengths are read in their fixed order. What
is left out at its end is zero.
-/

namespace Gelf.Deflate

/-! ### Lengths as pieces -/

/-- Pieces that extend the lengths so far to all lengths. Both are kept in reverse. -/
inductive Extends (all : List Nat) : List Nat → List LengthPiece → Prop
  | done : Extends all all []
  | one {taken : List Nat} {pieces : List LengthPiece} {length : Nat} (length_lt : length < 16)
    (rest : Extends all (length :: taken) pieces) : Extends all taken (.one length :: pieces)
  | again {taken : List Nat} {pieces : List LengthPiece} {length n : Nat}
    (head_eq : taken.head? = some length) (le : 3 ≤ n) (lt : n < 7)
    (rest : Extends all (List.replicate n length ++ taken) pieces) :
    Extends all taken (.again n :: pieces)
  | zeros {taken : List Nat} {pieces : List LengthPiece} {n : Nat} (le : 3 ≤ n) (lt : n < 139)
    (rest : Extends all (List.replicate n 0 ++ taken) pieces) : Extends all taken (.zeros n :: pieces)

namespace Extends

variable {all taken : List Nat} {pieces : List LengthPiece}

theorem length_add_length_le (h : Extends all taken pieces) :
    taken.length + pieces.length ≤ all.length := by
  induction h with
  | done => exact Nat.le_refl _
  | one _ _ ih | again _ _ _ _ ih | zeros _ _ _ ih =>
    simp only [List.length_cons, List.length_append, List.length_replicate] at ih ⊢
    omega

theorem length_lt {piece : LengthPiece} (h : Extends all taken (piece :: pieces)) :
    taken.length < all.length :=
  Nat.lt_of_lt_of_le (Nat.lt_add_of_pos_right (Nat.succ_pos _)) h.length_add_length_le

theorem symbol_lt (h : Extends all taken pieces) : ∀ piece ∈ pieces, piece.symbol < 19 := by
  induction h with
  | done => exact fun _ hmem => nomatch hmem
  | one length_lt _ ih => exact List.forall_mem_cons.2 ⟨length_lt.trans (by decide), ih⟩
  | again _ _ _ _ ih => exact List.forall_mem_cons.2 ⟨show 16 < 19 by decide, ih⟩
  | zeros _ _ _ ih =>
    refine List.forall_mem_cons.2 ⟨?_, ih⟩
    rw [LengthPiece.symbol]
    split <;> decide

variable {length : Nat} (hlength : length < 16)
include hlength

theorem ones (k : Nat) (h : Extends all (List.replicate k length ++ taken) pieces) :
    Extends all taken (List.replicate k (.one length) ++ pieces) := by
  induction k generalizing taken with
  | zero => exact h
  | succ k ih =>
    rw [List.replicate_succ', List.append_assoc] at h
    exact .one hlength (ih h)

/-- The same length again and again. Any but zero has to stand last so far. -/
theorem repeated (k : Nat) (hlast : length = 0 ∨ taken.head? = some length)
    (h : Extends all (List.replicate k length ++ taken) pieces) :
    Extends all taken (LengthPiece.repeated length k ++ pieces) := by
  induction k using Nat.strong_induction_on generalizing taken with
  | h k ih =>
    by_cases hfew : k < 3
    · rw [LengthPiece.repeated, if_pos hfew]
      exact ones hlength k h
    have hmost : 3 ≤ min k (LengthPiece.most length) := by
      rw [LengthPiece.most]
      split <;> omega
    -- Behind what one piece repeats, the same length stands last.
    have hrest : Extends all (List.replicate (min k (LengthPiece.most length)) length ++ taken)
        (LengthPiece.repeated length (k - min k (LengthPiece.most length)) ++ pieces) := by
      refine ih _ (by omega) (.inr ?_) ?_
      · rw [List.head?_append, List.head?_replicate, if_neg (by omega)]
        rfl
      · rwa [← List.append_assoc, List.replicate_append_replicate,
          Nat.sub_add_cancel (Nat.min_le_left _ _)]
    rw [LengthPiece.repeated, if_neg hfew]
    dsimp only
    by_cases hzero : length = 0
    · subst hzero
      exact .zeros hmost (Nat.lt_succ_of_le (Nat.min_le_right _ _)) hrest
    · rw [if_neg hzero]
      rw [LengthPiece.most, if_neg hzero] at hmost hrest ⊢
      exact .again (hlast.resolve_left hzero) hmost (Nat.lt_succ_of_le (Nat.min_le_right _ _)) hrest

theorem ofRun (k : Nat) (hk : 0 < k)
    (h : Extends all (List.replicate k length ++ taken) pieces) :
    Extends all taken (LengthPiece.ofRun length k ++ pieces) := by
  rw [LengthPiece.ofRun]
  split
  next hzero =>
    subst hzero
    exact repeated hlength k (.inl rfl) h
  next hne =>
    obtain ⟨k, rfl⟩ := Nat.exists_eq_succ_of_ne_zero hk.ne'
    rw [List.replicate_succ', List.append_assoc] at h
    exact .one hlength (repeated hlength k (.inr rfl) h)

end Extends

/-! ### Runs -/

theorem flatMap_runs (ns : List Nat) :
    ((runs ns).flatMap fun run => List.replicate run.2 run.1) = ns := by
  induction ns with
  | nil => rfl
  | cons n ns ih =>
    rw [runs]
    split
    next m k rest heq =>
      rw [heq, List.flatMap_cons] at ih
      split
      next hsame =>
        rw [List.flatMap_cons, List.replicate_succ, List.cons_append, ih, hsame]
      next =>
        rw [List.flatMap_cons, List.flatMap_cons, ih]
        rfl
    next heq =>
      rw [heq] at ih
      rw [← ih]
      rfl

theorem pos_of_mem_runs (ns : List Nat) : ∀ run ∈ runs ns, 0 < run.2 := by
  induction ns with
  | nil => exact fun _ hmem => nomatch hmem
  | cons n ns ih =>
    rw [runs]
    split
    next m k rest heq =>
      rw [heq] at ih
      split
      next => exact List.forall_mem_cons.2 ⟨Nat.succ_pos k, (List.forall_mem_cons.1 ih).2⟩
      next => exact List.forall_mem_cons.2 ⟨Nat.one_pos, ih⟩
    next => exact List.forall_mem_singleton.2 Nat.one_pos

theorem Extends.flatMap_ofRun {runs : List (Nat × Nat)} (hpos : ∀ run ∈ runs, 0 < run.2)
    (hlength : ∀ run ∈ runs, run.1 < 16) (taken : List Nat) :
    Extends ((runs.flatMap fun run => List.replicate run.2 run.1).reverse ++ taken) taken
      (runs.flatMap fun run => LengthPiece.ofRun run.1 run.2) := by
  induction runs generalizing taken with
  | nil => exact .done
  | cons run runs ih =>
    obtain ⟨hpos, hposs⟩ := List.forall_mem_cons.1 hpos
    obtain ⟨hlength, hlengths⟩ := List.forall_mem_cons.1 hlength
    have hrest := ih hposs hlengths (List.replicate run.2 run.1 ++ taken)
    rw [List.flatMap_cons, List.flatMap_cons, List.reverse_append, List.reverse_replicate,
      List.append_assoc]
    exact ofRun hlength run.2 hpos hrest

/-- **The pieces of code lengths stand for them.** -/
theorem lengthPieces_extend {lengths : List Nat} (h : ∀ length ∈ lengths, length < 16) :
    Extends lengths.reverse [] (lengthPieces lengths) := by
  have hpos := pos_of_mem_runs lengths
  have hlength : ∀ run ∈ runs lengths, run.1 < 16 := by
    intro run hmem
    apply h
    rw [← flatMap_runs lengths]
    exact List.mem_flatMap.2 ⟨run, hmem, List.mem_replicate.2 ⟨(hpos run hmem).ne', rfl⟩⟩
  have hextends := Extends.flatMap_ofRun hpos hlength []
  rwa [flatMap_runs, List.append_nil] at hextends

/-! ### Reading pieces of lengths -/

theorem Extends.reads_lengths {all taken code : List Nat} {pieces : List LengthPiece}
    (h : Extends all taken pieces) (hcode : IsPrefixCode 7 code)
    (hcoded : ∀ piece ∈ pieces, code.getD piece.symbol 0 ≠ 0) {steps : Nat}
    (hsteps : pieces.length ≤ steps) :
    Reads (Reader.lengths (.ofLengths code) all.length (steps + 1) taken)
      (pieces.flatMap (LengthPiece.bits (codesOf code))) all.reverse := by
  induction h generalizing steps with
  | done =>
    rw [Reader.lengths, if_pos (Nat.le_refl _), if_pos rfl]
    exact .pure _
  | @one taken pieces length length_lt rest ih =>
    obtain ⟨hpiece, hpieces⟩ := List.forall_mem_cons.1 hcoded
    obtain ⟨steps, rfl⟩ := Nat.exists_eq_succ_of_ne_zero (Nat.ne_zero_of_lt hsteps)
    rw [Reader.lengths, if_neg (rest.one length_lt).length_lt.not_ge, List.flatMap_cons,
      LengthPiece.bits, List.append_assoc]
    refine (Code.reads_symbol hcode (by decide) hpiece).bind ?_
    rw [LengthPiece.symbol, if_pos length_lt]
    exact ih hpieces (Nat.le_of_succ_le_succ hsteps)
  | @again taken pieces length n head_eq le lt rest ih =>
    obtain ⟨hpiece, hpieces⟩ := List.forall_mem_cons.1 hcoded
    obtain ⟨steps, rfl⟩ := Nat.exists_eq_succ_of_ne_zero (Nat.ne_zero_of_lt hsteps)
    rw [Reader.lengths, if_neg (rest.again head_eq le lt).length_lt.not_ge, List.flatMap_cons,
      LengthPiece.bits, List.append_assoc]
    refine (Code.reads_symbol hcode (by decide) hpiece).bind ?_
    rw [LengthPiece.symbol, if_neg (by decide), if_pos rfl]
    refine .bind_lift head_eq ((Reads.number (by omega)).bind ?_)
    rw [Nat.add_sub_cancel' le]
    exact ih hpieces (Nat.le_of_succ_le_succ hsteps)
  | @zeros taken pieces n le lt rest ih =>
    obtain ⟨hpiece, hpieces⟩ := List.forall_mem_cons.1 hcoded
    obtain ⟨steps, rfl⟩ := Nat.exists_eq_succ_of_ne_zero (Nat.ne_zero_of_lt hsteps)
    rw [Reader.lengths, if_neg (rest.zeros le lt).length_lt.not_ge, List.flatMap_cons,
      LengthPiece.bits, List.append_assoc]
    refine (Code.reads_symbol hcode (by decide) hpiece).bind ?_
    rw [LengthPiece.symbol, LengthPiece.extraBits]
    by_cases hfew : n < 11
    · rw [if_pos hfew, if_pos hfew, if_neg (by decide), if_neg (by decide), if_pos rfl]
      refine (Reads.number (by omega)).bind ?_
      rw [Nat.add_sub_cancel' le]
      exact ih hpieces (Nat.le_of_succ_le_succ hsteps)
    · rw [if_neg hfew, if_neg hfew, if_neg (by decide), if_neg (by decide), if_neg (by decide)]
      refine (Reads.number (by omega)).bind ?_
      rw [Nat.add_sub_cancel' (Nat.not_lt.1 hfew)]
      exact ih hpieces (Nat.le_of_succ_le_succ hsteps)

/-! ### Lengths without the zeros at the end -/

theorem exists_trimLengths {least : Nat} {lengths : List Nat} (h : least ≤ lengths.length) :
    ∃ m, least ≤ m ∧ m ≤ lengths.length ∧ trimLengths least lengths = lengths.take m ∧
      ∀ length ∈ lengths.drop m, length = 0 := by
  have hle := (List.dropWhile_sublist (· = 0) (l := lengths.reverse)).length_le
  have hsplit : (lengths.reverse.dropWhile (· = 0)).reverse ++
      (lengths.reverse.takeWhile (· = 0)).reverse = lengths := by
    rw [← List.reverse_append, List.takeWhile_append_dropWhile, List.reverse_reverse]
  have hdrop : lengths.drop (lengths.reverse.dropWhile (· = 0)).length =
      (lengths.reverse.takeWhile (· = 0)).reverse :=
    (congrArg (List.drop _) hsplit).symm.trans (List.drop_left' List.length_reverse)
  rw [List.length_reverse] at hle
  refine ⟨_, Nat.le_max_left _ _, Nat.max_le.2 ⟨h, hle⟩, rfl, fun length hmem => ?_⟩
  have hdropped := (List.drop_sublist_drop_left lengths (Nat.le_max_right _ _)).subset hmem
  rw [hdrop, List.mem_reverse] at hdropped
  have hzero := List.mem_takeWhile_imp hdropped
  exact of_decide_eq_true hzero

/-- What is left out has no code. -/
theorem getD_trimLengths {least : Nat} {lengths : List Nat} (h : least ≤ lengths.length)
    (symbol : Nat) : (trimLengths least lengths).getD symbol 0 = lengths.getD symbol 0 := by
  obtain ⟨m, -, -, heq, hzero⟩ := exists_trimLengths h
  rw [heq, List.getD_eq_getElem?_getD, List.getD_eq_getElem?_getD, List.getElem?_take]
  split
  next => rfl
  next hout =>
    cases hlength : lengths[symbol]? with
    | none => rfl
    | some length =>
      rw [← Nat.add_sub_cancel' (Nat.not_lt.1 hout), ← List.getElem?_drop] at hlength
      exact (hzero length (List.mem_of_getElem? hlength)).symm

theorem IsPrefixCode.take {limit : Nat} {lengths : List Nat} (h : IsPrefixCode limit lengths)
    (m : Nat) : IsPrefixCode limit (lengths.take m) where
  le_limit length hmem := h.le_limit length (List.mem_of_mem_take hmem)
  space_le := by
    refine Nat.le_trans ?_ h.space_le
    rw [codeSpace_eq_sum, codeSpace_eq_sum]
    exact ((List.take_sublist m lengths).map _).sum_le_sum fun _ _ => Nat.zero_le _

/-! ### The order of the lengths of the code of lengths -/

theorem reads_ordered {places : List Nat} {value : Nat → Nat} (hvalue : ∀ place, value place < 8)
    {m : Nat} (hm : m ≤ places.length) (lengths : List Nat) :
    Reads (Reader.ordered places m lengths) (((places.map value).take m).flatMap (numberBits 3))
      ((places.take m).foldl (fun lengths place => lengths.set place (value place)) lengths) := by
  induction m generalizing places lengths with
  | zero =>
    cases places with
    | nil => exact .pure _
    | cons place places => exact .pure _
  | succ m ih =>
    cases places with
    | nil => cases hm
    | cons place places =>
      exact (Reads.number (hvalue place)).bind (ih (Nat.le_of_succ_le_succ hm) _)

theorem getElem?_foldl_set (places : List Nat) (value : Nat → Nat) (lengths : List Nat) (x : Nat) :
    (places.foldl (fun lengths place => lengths.set place (value place)) lengths)[x]? =
      if x ∈ places then lengths[x]?.map fun _ => value x else lengths[x]? := by
  induction places generalizing lengths with
  | nil => simp
  | cons place places ih =>
    rw [List.foldl_cons, ih, List.getElem?_set']
    by_cases hsame : place = x
    · subst hsame
      rw [if_pos rfl, if_pos List.mem_cons_self]
      cases lengths[place]? with
      | none => simp
      | some length => simp
    · simp [hsame, Ne.symm hsame]

theorem mem_codeLengthOrder {x : Nat} (h : x < 19) : x ∈ codeLengthOrder := by
  have hall : ∀ x < 19, x ∈ codeLengthOrder := by decide
  exact hall x h

/-- **The lengths of the code of lengths are read in their order.** -/
theorem reads_codeLengthOrder {code : List Nat} (hlength : code.length = 19)
    (hlt : ∀ length ∈ code, length < 8) :
    ∃ m, 4 ≤ m ∧ m ≤ 19 ∧
      (trimLengths 4 (codeLengthOrder.map fun place => code.getD place 0)).length = m ∧
      Reads (Reader.ordered codeLengthOrder m (List.replicate 19 0))
        ((trimLengths 4 (codeLengthOrder.map fun place => code.getD place 0)).flatMap
          (numberBits 3)) code := by
  obtain ⟨m, hleast, hm, heq, hzero⟩ :=
    exists_trimLengths (show 4 ≤ (codeLengthOrder.map fun place => code.getD place 0).length by
      rw [List.length_map]
      decide)
  rw [List.length_map] at hm
  have hvalue (place : Nat) : code.getD place 0 < 8 := by
    rw [List.getD_eq_getElem?_getD]
    cases hplace : code[place]? with
    | none => exact Nat.succ_pos 7
    | some length => exact hlt length (List.mem_of_getElem? hplace)
  have hcode : (codeLengthOrder.take m).foldl (fun lengths place =>
      lengths.set place (code.getD place 0)) (List.replicate 19 0) = code := by
    apply List.ext_getElem?
    intro x
    rw [getElem?_foldl_set, List.getElem?_replicate]
    by_cases hx : x < 19
    · have hget : code[x]? = some (code.getD x 0) := by
        rw [List.getD_eq_getElem?_getD, List.getElem?_eq_getElem (hlength ▸ hx), Option.getD_some]
      rw [if_pos hx, hget]
      by_cases hsent : x ∈ codeLengthOrder.take m
      · rw [if_pos hsent]
        rfl
      · have hmem : x ∈ codeLengthOrder.take m ++ codeLengthOrder.drop m := by
          rw [List.take_append_drop]
          exact mem_codeLengthOrder hx
        have hdrop := (List.mem_append.1 hmem).resolve_left hsent
        have hnone : code.getD x 0 = 0 := by
          apply hzero
          rw [← List.map_drop]
          exact List.mem_map_of_mem hdrop
        rw [if_neg hsent, hnone]
    · rw [if_neg hx, List.getElem?_eq_none (hlength ▸ Nat.not_lt.1 hx)]
      simp
  refine ⟨m, hleast, hm, ?_, ?_⟩
  · rw [heq, List.length_take_of_le (by rwa [List.length_map])]
  · have hread := reads_ordered hvalue hm (List.replicate 19 0)
    rw [hcode] at hread
    rwa [heq]

/-! ### The header of a block -/

/-- **The codes of a block are read from its header.** -/
theorem reads_codes {literals distances : List Nat} (hliterals : 257 ≤ literals.length)
    (hliterals' : literals.length ≤ 286) (hdistances : 1 ≤ distances.length)
    (hdistances' : distances.length ≤ 30)
    (hlengths : ∀ length ∈ literals ++ distances, length < 16) :
    Reads Reader.codes (headerBits literals distances)
      (.ofLengths literals, .ofLengths distances) := by
  have hextends := lengthPieces_extend hlengths
  have hlimit : 19 ≤ 2 ^ 7 := by decide
  have hcode := isPrefixCode_codeLengths_tally (Nat.succ_pos 6) hlimit
    ((lengthPieces (literals ++ distances)).map LengthPiece.symbol)
  have hcoded : ∀ piece ∈ lengthPieces (literals ++ distances), (codeLengths 7 (tally 19
      ((lengthPieces (literals ++ distances)).map LengthPiece.symbol))).getD piece.symbol 0 ≠ 0 :=
    fun piece hmem => getD_codeLengths_tally_ne_zero (Nat.succ_pos 6) hlimit
      (List.mem_map_of_mem hmem) (hextends.symbol_lt piece hmem)
  obtain ⟨m, hleast, hm, hsent, hordered⟩ := reads_codeLengthOrder
    (length_codeLengths_tally (Nat.succ_pos 6) hlimit _) fun length hmem =>
      Nat.lt_succ_of_le (hcode.le_limit length hmem)
  have hsteps : (lengthPieces (literals ++ distances)).length ≤
      literals.length + distances.length := by
    simpa [Nat.add_comm] using hextends.length_add_length_le
  have hread := hextends.reads_lengths hcode hcoded hsteps
  rw [List.reverse_reverse, List.length_reverse, List.length_append] at hread
  have hcodes := hread.bind_pure fun all => (Code.ofLengths (all.take literals.length),
    Code.ofLengths (all.drop literals.length))
  rw [List.take_left, List.drop_left] at hcodes
  unfold headerBits
  dsimp only
  rw [hsent]
  refine (Reads.number (by omega)).bind ?_
  refine (Reads.number (by omega)).bind ?_
  refine (Reads.number (by omega)).bind ?_
  rw [Nat.sub_add_cancel hleast, Nat.sub_add_cancel hliterals, Nat.sub_add_cancel hdistances]
  exact hordered.bind hcodes

end Gelf.Deflate
