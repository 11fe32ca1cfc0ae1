import Gelf.Proofs.Chunk.Cursor
import Mathlib.Algebra.Order.BigOperators.Group.List
import Mathlib.Algebra.Order.Floor.Div

/-!
# Exact cuts

A payload that fits stays whole. Any other is cut into pieces of one size, of which only the last
may be shorter, and it is refused when that takes too many. Under a limit with room beside the
header no other cut takes fewer chunks, and no datagram is longer than one before it.
-/

namespace Gelf

/-! ### How many chunks there are -/

theorem chunksNeeded_eq_ceilDiv (size : Nat) (limit : UInt64) :
    chunksNeeded size limit = size ⌈/⌉ usableSize limit :=
  (Nat.ceilDiv_eq_add_pred_div _ _).symm

theorem chunksNeeded_le_iff {size n : Nat} {limit : UInt64} :
    chunksNeeded size limit ≤ n ↔ size ≤ usableSize limit * n := by
  rw [chunksNeeded_eq_ceilDiv, ceilDiv_le_iff_le_mul (Message.usableSize_pos limit)]

theorem length_flatten_le {pieces : List (List UInt8)} {size : Nat}
    (h : ∀ piece ∈ pieces, piece.length ≤ size) :
    pieces.flatten.length ≤ size * pieces.length := by
  have hsum : (pieces.map List.length).sum ≤ (pieces.map List.length).length • size := by
    apply List.sum_le_card_nsmul
    intro n hn
    obtain ⟨piece, hpiece, rfl⟩ := List.mem_map.1 hn
    exact h piece hpiece
  rw [List.length_flatten]
  rw [List.length_map, smul_eq_mul, Nat.mul_comm] at hsum
  exact hsum

/-! ### The sizes of chunks -/

namespace ChunkCursor

/-- A later chunk is not longer. -/
theorem length_datagram_chunkAt_le (cursor : ChunkCursor) {i j : UInt8} (h : i ≤ j) :
    (cursor.chunkAt j).datagram.length ≤ (cursor.chunkAt i).datagram.length := by
  have hbefore : i.toNat * cursor.usable ≤ j.toNat * cursor.usable :=
    Nat.mul_le_mul_right _ (UInt8.le_iff_toNat_le.1 h)
  rw [Chunk.length_datagram, Chunk.length_datagram]
  cases hid : cursor.id with
  | none => simp only [chunkAt, hid, Nat.le_refl]
  | some id =>
    simp only [chunkAt, hid, Chunk.size, Chunk.headerSize, Option.isSome_some, if_true,
      List.length_take, List.length_drop]
    omega

theorem descending_collect {cursor : ChunkCursor} (h : cursor.next ≤ cursor.count) :
    (cursor.collect.map fun chunk => chunk.datagram.length).Pairwise (· ≥ ·) := by
  have hcount := cursor.count.toNat_lt
  rw [collect_eq_map_range' h, List.map_map, List.pairwise_map]
  refine List.Pairwise.imp_of_mem ?_ (List.pairwise_lt_range' 1)
  intro i j hi hj hij
  apply length_datagram_chunkAt_le
  have hi' := List.mem_range'_1.1 hi
  have hj' := List.mem_range'_1.1 hj
  have hbyte {k : Nat} (hk : k < 256) : (UInt8.ofNat k).toNat = k := UInt8.toNat_ofNat_of_lt' hk
  rw [UInt8.le_iff_toNat_le, hbyte (by omega), hbyte (by omega)]
  exact Nat.le_of_lt hij

end ChunkCursor

/-! ### Cuts -/

/-- The chunks of a payload that is cut into `count` pieces of `size` octets, the last of which may
be shorter. They share an id, and each knows its index and the count. -/
structure IsCut (id : MessageId) (size count : Nat) (payload : List UInt8) (chunks : List Chunk) :
    Prop where
  headers : (chunks.map fun chunk => chunk.header.map fun h => (h.id, h.index.toNat, h.count.toNat))
    = (List.range count).map fun i => some (id, i, count)
  joined : chunks.flatMap Chunk.payload = payload
  full : ∀ chunk ∈ chunks.dropLast, chunk.payload.length = size
  rest : ∀ chunk ∈ chunks.getLast?, 1 ≤ chunk.payload.length ∧ chunk.payload.length ≤ size

/-- No chunk breaks the limit, no cut under the limit takes fewer chunks, and none is longer than
one before it. A message takes a datagram even when there is nothing to cut. -/
structure IsTight (limit : Nat) (payload : List UInt8) (chunks : List Chunk) : Prop where
  short : ∀ chunk ∈ chunks, chunk.datagram.length ≤ limit
  fewest : ∀ pieces : List (List UInt8), pieces.flatten = payload →
    (∀ piece ∈ pieces, piece.length ≤ limit - chunkHeaderSize) →
    chunks.length ≤ max 1 pieces.length
  descending : (chunks.map fun chunk => chunk.datagram.length).Pairwise (· ≥ ·)

namespace Message

variable {m : Message}

theorem length_piece_of_succ_lt {i : Nat} (h : i + 1 < m.chunkCount) :
    (m.piece i).length = usableSize m.limit := by
  have hlt := mul_usableSize_lt h
  rw [Nat.succ_mul] at hlt
  rw [length_piece]
  omega

theorem isCut_chunkList (hlong : ¬ m.Fits) (hfew : m.chunkCount ≤ maxChunks) :
    IsCut m.id (usableSize m.limit) m.chunkCount m.payload m.chunkList := by
  have hpos := chunkCount_pos hlong
  have hlist : m.chunkList = (List.range m.chunkCount).map m.chunk := if_neg hlong
  have hsplitLast : m.chunkList =
      (List.range (m.chunkCount - 1)).map m.chunk ++ [m.chunk (m.chunkCount - 1)] := by
    rw [hlist, ← List.map_singleton, ← List.map_append, ← List.range_succ, Nat.succ_eq_add_one,
      Nat.sub_one_add_one (Nat.pos_iff_ne_zero.1 hpos)]
  constructor
  · rw [hlist, List.map_map]
    apply List.map_congr_left
    intro i hi
    have hi' := List.mem_range.1 hi
    simp only [Function.comp_apply, chunk, Option.map_some, toNat_ofNat_of_le_maxChunks hfew,
      toNat_ofNat_of_le_maxChunks (Nat.le_of_lt (Nat.lt_of_lt_of_le hi' hfew))]
  · rw [hlist, List.flatMap_map]
    exact flatMap_piece m
  · rw [hsplitLast, List.dropLast_concat]
    intro chunk hchunk
    obtain ⟨i, hi, rfl⟩ := List.mem_map.1 hchunk
    have hi' := List.mem_range.1 hi
    exact length_piece_of_succ_lt (by omega)
  · rw [hsplitLast, List.getLast?_concat]
    rintro chunk ⟨⟩
    have hlast : m.chunkCount - 1 < m.chunkCount := by omega
    refine ⟨length_piece_pos hlast, ?_⟩
    rw [chunk, length_piece]
    exact Nat.min_le_left _ _

theorem length_chunkList_le (hroom : chunkHeaderSize < m.limit.toNat) {pieces : List (List UInt8)}
    (hjoined : pieces.flatten = m.payload)
    (hshort : ∀ piece ∈ pieces, piece.length ≤ m.limit.toNat - chunkHeaderSize) :
    m.chunkList.length ≤ max 1 pieces.length := by
  have hfew : m.chunkCount ≤ pieces.length := by
    rw [chunkCount, chunksNeeded_le_iff, usableSize_of_room hroom, ← hjoined]
    exact length_flatten_le hshort
  rw [chunkList]
  split
  · exact Nat.le_max_left 1 _
  · rw [List.length_map, List.length_range]
    exact hfew.trans (Nat.le_max_right 1 _)

theorem length_datagram_le_of_mem (hroom : chunkHeaderSize < m.limit.toNat) {chunk : Chunk}
    (h : chunk ∈ m.chunkList) : chunk.datagram.length ≤ m.limit.toNat := by
  rw [chunkList] at h
  split at h
  · rename_i hfits
    rw [List.mem_singleton.1 h]
    exact hfits
  · obtain ⟨i, -, rfl⟩ := List.mem_map.1 h
    exact length_chunkDatagram_le hroom i

theorem isTight_of_split {chunks : ChunkCursor}
    (hsplit : split m.id m.payload m.limit = .ok chunks) (hroom : chunkHeaderSize < m.limit.toNat) :
    IsTight m.limit.toNat m.payload chunks.collect where
  short chunk hchunk := by
    rw [collect_eq_chunkList hsplit] at hchunk
    exact length_datagram_le_of_mem hroom hchunk
  fewest pieces hjoined hshort := by
    rw [collect_eq_chunkList hsplit]
    exact length_chunkList_le hroom hjoined hshort
  descending := ChunkCursor.descending_collect (next_le_count hsplit)

/-- A payload is sent whole exactly when it fits. -/
theorem fits_iff_exists_whole : m.Fits ↔
    ∃ chunks, split m.id m.payload m.limit = .ok chunks ∧
      chunks.collect = [{ header := none, payload := m.payload }] := by
  constructor
  · intro hfits
    refine ⟨_, split_of_fits hfits, ?_⟩
    rw [collect_eq_chunkList (split_of_fits hfits), chunkList, if_pos hfits]
  · rintro ⟨chunks, hsplit, hwhole⟩
    apply Decidable.byContradiction
    intro hlong
    have hcut := isCut_chunkList hlong (chunkCount_le_of_split hsplit hlong)
    rw [← collect_eq_chunkList hsplit, hwhole] at hcut
    -- The only chunk would have a header.
    have hnone : none ∈ (List.range m.chunkCount).map fun i => some (m.id, i, m.chunkCount) := by
      rw [← hcut.headers]
      exact List.mem_singleton_self _
    obtain ⟨i, -, hsome⟩ := List.mem_map.1 hnone
    cases hsome

theorem split_eq_tooLarge_iff (hlong : ¬ m.Fits) :
    split m.id m.payload m.limit = .error (.messageTooLarge m.payload.length m.chunkCount) ↔
      maxChunks < m.chunkCount := by
  rw [split_of_not_fits hlong]
  split
  · exact iff_of_true rfl (by assumption)
  · exact iff_of_false nofun (by assumption)

/-- Under a limit with room beside the header, one size tells what takes too many chunks. -/
theorem maxChunks_lt_iff (hroom : chunkHeaderSize < m.limit.toNat) :
    maxChunks < m.chunkCount ↔
      maxChunks * (m.limit.toNat - chunkHeaderSize) < m.payload.length := by
  rw [← Nat.not_le, chunkCount, chunksNeeded_le_iff, usableSize_of_room hroom, Nat.not_le,
    Nat.mul_comm]

/-- What fits is far below that size. -/
theorem not_fits_of_lt (hroom : chunkHeaderSize < m.limit.toNat)
    (h : maxChunks * (m.limit.toNat - chunkHeaderSize) < m.payload.length) : ¬ m.Fits := by
  rw [chunkHeaderSize] at hroom h
  rw [maxChunks] at h
  rw [Fits]
  omega

theorem split_of_lt (hroom : chunkHeaderSize < m.limit.toNat)
    (h : maxChunks * (m.limit.toNat - chunkHeaderSize) < m.payload.length) :
    split m.id m.payload m.limit = .error (.messageTooLarge m.payload.length m.chunkCount) :=
  (split_eq_tooLarge_iff (not_fits_of_lt hroom h)).2 ((maxChunks_lt_iff hroom).2 h)

theorem exists_split_of_not_lt (hroom : chunkHeaderSize < m.limit.toNat)
    (h : ¬ maxChunks * (m.limit.toNat - chunkHeaderSize) < m.payload.length) :
    ∃ chunks, split m.id m.payload m.limit = .ok chunks := by
  by_cases hfits : m.Fits
  · exact ⟨_, split_of_fits hfits⟩
  · have hsplit := split_of_not_fits hfits
    rw [if_neg fun hmany => h ((maxChunks_lt_iff hroom).1 hmany)] at hsplit
    exact ⟨_, hsplit⟩

theorem exists_split_of_le (hlong : ¬ m.Fits) (hfew : m.chunkCount ≤ maxChunks) :
    ∃ chunks, split m.id m.payload m.limit = .ok chunks ∧
      IsCut m.id (usableSize m.limit) m.chunkCount m.payload chunks.collect := by
  have hsplit := split_of_not_fits hlong
  rw [if_neg (Nat.not_lt.2 hfew)] at hsplit
  refine ⟨_, hsplit, ?_⟩
  rw [collect_eq_chunkList hsplit]
  exact isCut_chunkList hlong hfew

end Message

/-- **Exact cuts.** A payload is sent whole exactly when it fits. Otherwise it takes as many chunks
as it has pieces of the usable size, the last one rounded up: it is refused when these are more than
128, and is cut into just these when not. Under a limit with room for an octet beside the header
every cut is tight. -/
theorem split_is_exact (id : MessageId) (payload : List UInt8) (limit : UInt64) :
    let size := max 1 (limit.toNat - 12)
    let count := payload.length ⌈/⌉ size
    (payload.length ≤ limit.toNat ↔ ∃ chunks, split id payload limit = .ok chunks ∧
      chunks.collect = [{ header := none, payload }]) ∧
    (limit.toNat < payload.length →
      (split id payload limit = .error (.messageTooLarge payload.length count) ↔ 128 < count) ∧
      (count ≤ 128 → ∃ chunks, split id payload limit = .ok chunks ∧
        IsCut id size count payload chunks.collect)) ∧
    (13 ≤ limit.toNat → ∀ chunks, split id payload limit = .ok chunks →
      IsTight limit.toNat payload chunks.collect) := by
  intro size count
  let m : Message := ⟨id, payload, limit⟩
  have hcount : count = m.chunkCount := (chunksNeeded_eq_ceilDiv payload.length limit).symm
  refine ⟨m.fits_iff_exists_whole, ?_, ?_⟩
  · intro hlt
    have hlong : ¬ m.Fits := Nat.not_le.2 hlt
    rw [hcount]
    exact ⟨m.split_eq_tooLarge_iff hlong, m.exists_split_of_le hlong⟩
  · intro hroom chunks hsplit
    exact m.isTight_of_split hsplit hroom

/-- Twenty octets fit under a limit of 20, and one more takes three chunks of eight octets. -/
theorem one_octet_too_many_is_cut :
    let id := MessageId.ofNat 7
    let payload := List.replicate 21 (0x61 : UInt8)
    (∃ chunks, split id (payload.take 20) 20 = .ok chunks ∧
      chunks.collect = [{ header := none, payload := payload.take 20 }]) ∧
    ∃ chunks, split id payload 20 = .ok chunks ∧ IsCut id 8 3 payload chunks.collect ∧
      IsTight 20 payload chunks.collect ∧
      chunks.collect.map (fun chunk => chunk.datagram.length) = [20, 20, 17] := by
  intro id payload
  obtain ⟨hwhole, -, -⟩ := split_is_exact id (payload.take 20) 20
  obtain ⟨-, hlong, htight⟩ := split_is_exact id payload 20
  obtain ⟨-, hcut⟩ := hlong (by decide)
  obtain ⟨chunks, hsplit, hchunks⟩ := hcut (by decide)
  have hsize : max 1 ((20 : UInt64).toNat - 12) = 8 := by decide
  have hcount : payload.length ⌈/⌉ 8 = 3 := by decide
  rw [hsize, hcount] at hchunks
  refine ⟨hwhole.1 (by decide), chunks, hsplit, hchunks, htight (by decide) chunks hsplit, ?_⟩
  let m : Message := ⟨id, payload, 20⟩
  rw [m.collect_eq_chunkList hsplit]
  decide

end Gelf
