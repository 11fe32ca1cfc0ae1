import Gelf.Proofs.Deflate.Header
import Gelf.Proofs.Deflate.Pieces

/-!
# Inflating what was deflated

Deflated data inflates to the data. A block in a code is read piece by piece, in the fixed code as
in a code of its own, which is read first. Plain blocks are read as they are, however many of them
there are.
-/

namespace Gelf.Deflate

/-! ### The fixed code -/

theorem mem_fixedLiteralLengths {length : Nat} (h : length ∈ fixedLiteralLengths) :
    7 ≤ length ∧ length ≤ 9 := by
  simp only [fixedLiteralLengths, List.mem_append, List.mem_replicate] at h
  omega

theorem isPrefixCode_fixedLiteralLengths : IsPrefixCode 15 fixedLiteralLengths where
  le_limit _ hmem := (mem_fixedLiteralLengths hmem).2.trans (by decide)
  space_le := by decide +kernel

theorem isPrefixCode_fixedDistanceLengths : IsPrefixCode 15 fixedDistanceLengths where
  le_limit := by decide
  space_le := by decide

theorem getD_ne_zero {lengths : List Nat} (hlengths : ∀ length ∈ lengths, length ≠ 0) {symbol : Nat}
    (h : symbol < lengths.length) : lengths.getD symbol 0 ≠ 0 := by
  rw [List.getD_eq_getElem?_getD, List.getElem?_eq_getElem h]
  exact hlengths _ (List.getElem_mem h)

theorem getD_fixedLiteralLengths_ne_zero {symbol : Nat} (h : symbol < 286) :
    fixedLiteralLengths.getD symbol 0 ≠ 0 := by
  refine getD_ne_zero (fun length hmem => ?_) ?_
  · have hle := (mem_fixedLiteralLengths hmem).1
    omega
  · simp only [fixedLiteralLengths, List.length_append, List.length_replicate]
    omega

theorem isCoded_fixed {piece : Piece} (h : piece.IsInRange) :
    piece.IsCoded fixedLiteralLengths fixedDistanceLengths where
  symbol_ne := getD_fixedLiteralLengths_ne_zero (Piece.symbol_lt h)
  distance_ne _ hsymbol := getD_ne_zero (by decide) (Piece.distanceSymbol_lt h hsymbol)

/-! ### A code of its own -/

/-- Lengths of a prefix code for some symbols below a size. -/
structure IsCodeFor (least size : Nat) (symbols lengths : List Nat) : Prop where
  isPrefixCode : IsPrefixCode 15 lengths
  le_length : least ≤ lengths.length
  length_le : lengths.length ≤ size
  getD_ne_zero : ∀ symbol ∈ symbols, symbol < size → lengths.getD symbol 0 ≠ 0

theorem isCodeFor_trimLengths {least size : Nat} (hleast : least ≤ size) (hsize : size ≤ 2 ^ 15)
    (symbols : List Nat) :
    IsCodeFor least size symbols (trimLengths least (codeLengths 15 (tally size symbols))) := by
  have hlength := length_codeLengths_tally (Nat.succ_pos 14) hsize symbols
  obtain ⟨m, hm, hm', heq, -⟩ := exists_trimLengths (hleast.trans_eq hlength.symm)
  constructor
  · exact (isPrefixCode_codeLengths_tally (Nat.succ_pos 14) hsize symbols).take _
  · rwa [heq, List.length_take_of_le hm']
  · rwa [heq, List.length_take_of_le hm', ← hlength]
  · intro symbol hmem hlt
    rw [getD_trimLengths (hleast.trans_eq hlength.symm)]
    exact getD_codeLengths_tally_ne_zero (Nat.succ_pos 14) hsize hmem hlt

theorem isCodeFor_literalLengths (pieces : List Piece) :
    IsCodeFor 257 286 (256 :: pieces.map Piece.symbol) (literalLengths pieces) :=
  isCodeFor_trimLengths (by decide) (by decide) _

theorem isCodeFor_distanceLengths (pieces : List Piece) :
    IsCodeFor 1 30 (pieces.filterMap Piece.distanceSymbol?) (distanceLengths pieces) :=
  isCodeFor_trimLengths (by decide) (by decide) _

theorem isCoded_own {pieces : List Piece} (hrange : ∀ piece ∈ pieces, piece.IsInRange) :
    ∀ piece ∈ pieces, piece.IsCoded (literalLengths pieces) (distanceLengths pieces) := by
  intro piece hmem
  constructor
  · exact (isCodeFor_literalLengths pieces).getD_ne_zero _
      (List.mem_cons_of_mem _ (List.mem_map_of_mem hmem)) (Piece.symbol_lt (hrange piece hmem))
  · intro symbol hsymbol
    exact (isCodeFor_distanceLengths pieces).getD_ne_zero _
      (List.mem_filterMap.2 ⟨piece, hmem, hsymbol⟩)
      (Piece.distanceSymbol_lt (hrange piece hmem) hsymbol)

/-! ### Blocks in a code -/

section

variable {data : Array UInt8} {pieces : List Piece} {steps : Nat}

theorem reads_lastBlock {bits : List Bool} {kind : Nat} (hkind : kind < 4)
    (h : Reads (Reader.block (steps + 1) kind #[]) bits data) :
    Reads (Reader.blocks (steps + 1) #[]) (true :: (numberBits 2 kind ++ bits)) data := by
  rw [Reader.blocks]
  refine (Reads.bit true).bind ((Reads.number hkind).bind ?_)
  exact h.bind_pure id

theorem reads_fixedBlock (h : Describes data #[] pieces)
    (hsteps : (fixedBlock pieces).length ≤ steps) :
    Reads (Reader.blocks (steps + 1) #[]) (fixedBlock pieces) data := by
  have hend := getD_fixedLiteralLengths_ne_zero (show 256 < 286 by decide)
  have hcoded : ∀ piece ∈ pieces, piece.IsCoded fixedLiteralLengths fixedDistanceLengths :=
    fun piece hmem => isCoded_fixed (h.isInRange piece hmem)
  have hlength := length_lt_length_bodyBits hend hcoded
  apply reads_lastBlock (by decide)
  apply h.reads_symbols hend hcoded isPrefixCode_fixedLiteralLengths
    isPrefixCode_fixedDistanceLengths
  simp only [fixedBlock, List.length_cons, List.length_append] at hsteps
  omega

theorem reads_ownBlock (h : Describes data #[] pieces)
    (hsteps : (ownBlock pieces).length ≤ steps) :
    Reads (Reader.blocks (steps + 1) #[]) (ownBlock pieces) data := by
  have hliterals := isCodeFor_literalLengths pieces
  have hdistances := isCodeFor_distanceLengths pieces
  have hend := hliterals.getD_ne_zero 256 List.mem_cons_self (by decide)
  have hcoded := isCoded_own h.isInRange
  have hlength := length_lt_length_bodyBits hend hcoded
  have hlengths : ∀ length ∈ literalLengths pieces ++ distanceLengths pieces, length < 16 := by
    intro length hmem
    rcases List.mem_append.1 hmem with hmem | hmem
    · exact Nat.lt_succ_of_le (hliterals.isPrefixCode.le_limit length hmem)
    · exact Nat.lt_succ_of_le (hdistances.isPrefixCode.le_limit length hmem)
  apply reads_lastBlock (by decide)
  refine (reads_codes hliterals.le_length hliterals.length_le hdistances.le_length
    hdistances.length_le hlengths).bind ?_
  apply h.reads_symbols hend hcoded hliterals.isPrefixCode hdistances.isPrefixCode
  simp only [ownBlock, List.length_cons, List.length_append] at hsteps
  omega

theorem reads_codedBlock (h : Describes data #[] pieces)
    (hsteps : (codedBlock pieces).length ≤ steps) :
    Reads (Reader.blocks (steps + 1) #[]) (codedBlock pieces) data := by
  unfold codedBlock at hsteps ⊢
  dsimp only at hsteps ⊢
  split at hsteps
  next hshorter =>
    rw [if_pos hshorter]
    exact reads_ownBlock h hsteps
  next hlonger =>
    rw [if_neg hlonger]
    exact reads_fixedBlock h hsteps

end

/-- Packed bits are read whatever octets come behind them. -/
theorem inflate_pack {bits : List Bool} {data : Array UInt8}
    (h : ∀ steps, bits.length ≤ steps → Reads (Reader.blocks (steps + 1) #[]) bits data)
    (t : List UInt8) : inflate ((pack #[] bits).toList ++ t) = some (data.toList, t) := by
  obtain ⟨m, hm, hpack⟩ := exists_octetBits_pack #[] bits
  change octetBits (pack #[] bits).toList = bits ++ List.replicate m false at hpack
  have hbits : (Bits.ofOctets ((pack #[] bits).toList ++ t)).toList =
      bits ++ (List.replicate m false ++ octetBits t) := by
    rw [Bits.toList, Bits.ofOctets, List.nil_append, octetBits_append, hpack, List.append_assoc]
  have hsteps : bits.length ≤ 8 * ((pack #[] bits).toList ++ t).length := by
    have hlength := congrArg List.length hpack
    simp only [length_octetBits, List.length_append] at hlength ⊢
    omega
  obtain ⟨s, hs, hleft⟩ := h _ hsteps _ _ hbits
  have hrest := Bits.rest_eq hleft (by rwa [List.length_replicate])
  rw [inflate, hs, Option.map_some]
  dsimp only
  rw [hrest]

/-! ### Plain blocks -/

theorem toNat_length_octets {n : Nat} (h : n ≤ maxStored) :
    (UInt8.ofNat (n % 256)).toNat + 256 * (UInt8.ofNat (n / 256)).toNat = n := by
  have hlow : n % 256 < 2 ^ 8 := by omega
  have hhigh : n / 256 < 2 ^ 8 := by
    rw [maxStored] at h
    omega
  rw [UInt8.toNat_ofNat_of_lt' hlow, UInt8.toNat_ofNat_of_lt' hhigh]
  omega

theorem plain_eq_some {s : Bits} {bytes t : List UInt8} (h : bytes.length ≤ maxStored)
    (hrest : s.rest = UInt8.ofNat (bytes.length % 256) :: UInt8.ofNat (bytes.length / 256) ::
      ~~~UInt8.ofNat (bytes.length % 256) :: ~~~UInt8.ofNat (bytes.length / 256) :: (bytes ++ t))
    (out : Array UInt8) : Reader.plain out s = some (out ++ bytes, .ofOctets t) := by
  unfold Reader.plain
  rw [hrest]
  dsimp only
  rw [toNat_length_octets h, if_pos ⟨rfl, rfl, by rw [List.length_append]; omega⟩,
    List.drop_left, List.take_left]

/-- The first octet of a plain block tells that it is plain and whether it is the last. -/
theorem octetBits_storedBlock (isLast : Bool) (bytes t : List UInt8) :
    octetBits (storedBlock isLast bytes ++ t) = isLast :: (numberBits 2 0 ++
      (List.replicate 5 false ++ octetBits ((storedBlock isLast bytes).tail ++ t))) := by
  cases isLast <;> rfl

theorem blocks_storedBlock (steps : Nat) (isLast : Bool) {bytes : List UInt8}
    (h : bytes.length ≤ maxStored) (t : List UInt8) (out : Array UInt8) :
    Reader.blocks (steps + 1) out (.ofOctets (storedBlock isLast bytes ++ t)) =
      if isLast then some (out ++ bytes, .ofOctets t)
      else Reader.blocks steps (out ++ bytes) (.ofOctets t) := by
  obtain ⟨s, hs, hleft⟩ := Reads.bit isLast (.ofOctets (storedBlock isLast bytes ++ t)) _
    (octetBits_storedBlock isLast bytes t)
  obtain ⟨s', hs', hleft'⟩ := Reads.number (show 0 < 2 ^ 2 by decide) s _ hleft
  have hrest := Bits.rest_eq hleft' (by decide)
  have hplain := plain_eq_some h hrest out
  rw [Reader.blocks]
  simp only [bind, StateT.bind, hs, hs', Option.bind, Reader.block, hplain]
  cases isLast with
  | true => rfl
  | false => rfl

theorem blocks_stored {steps : Nat} (data : List UInt8) (hsteps : data.length / maxStored < steps)
    (t : List UInt8) (out : Array UInt8) :
    Reader.blocks steps out (.ofOctets (stored data ++ t)) = some (out ++ data, .ofOctets t) := by
  -- Every block but the last takes as much data as one block can hold.
  induction data using stored.induct generalizing steps out with
  | case1 data hle =>
    obtain ⟨steps, rfl⟩ := Nat.exists_eq_succ_of_ne_zero (Nat.ne_zero_of_lt hsteps)
    rw [stored, if_pos hle, blocks_storedBlock steps true hle, if_pos rfl]
  | case2 data hlt ih =>
    obtain ⟨steps, rfl⟩ := Nat.exists_eq_succ_of_ne_zero (Nat.ne_zero_of_lt hsteps)
    have hlength : (data.take maxStored).length ≤ maxStored := List.length_take_le _ _
    have hfewer : (data.drop maxStored).length / maxStored < steps := by
      rw [List.length_drop]
      simp only [maxStored] at *
      omega
    have hjoin : out ++ data.take maxStored ++ data.drop maxStored = out ++ data := by
      apply Array.ext'
      simp
    rw [stored, if_neg hlt, List.append_assoc, blocks_storedBlock steps false hlength,
      if_neg (by decide), ih hfewer, hjoin]

theorem length_le_stored (data : List UInt8) : data.length ≤ (stored data).length := by
  induction data using stored.induct with
  | case1 data hle =>
    rw [stored, if_pos hle, storedBlock]
    simp only [List.length_cons]
    omega
  | case2 data hlt ih =>
    rw [stored, if_neg hlt, storedBlock]
    simp only [List.length_append, List.length_cons, List.length_take, List.length_drop] at ih ⊢
    omega

theorem inflate_stored (data t : List UInt8) : inflate (stored data ++ t) = some (data, t) := by
  have hlength := length_le_stored data
  have hsteps : data.length / maxStored < 8 * (stored data ++ t).length + 1 := by
    have hdiv := Nat.div_le_self data.length maxStored
    rw [List.length_append]
    omega
  rw [inflate, blocks_stored data hsteps t #[]]
  simp [Bits.ofOctets]

/-- **Deflating loses nothing.** Inflating deflated data gives the data, and leaves what is behind
it. -/
theorem inflate_deflate (data t : List UInt8) : inflate (deflate data ++ t) = some (data, t) := by
  have hcoded := inflate_pack (fun _ => reads_codedBlock (describes_pieces data.toArray)) t
  rw [List.toList_toArray] at hcoded
  unfold deflate
  dsimp only
  split
  next => exact hcoded
  next => exact inflate_stored data t

end Gelf.Deflate
