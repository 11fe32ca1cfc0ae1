import Gelf.Proofs.Chunk.Cutting
import Gelf.Proofs.Chunk.Script

/-!
# Chunks at machine width

Cursors reckon with numbers of any size, and take what there is of a piece. A machine has eight bits
for the index and the count of chunks and 64 bits for sizes and positions. It stops at a number that
does not fit, at a difference below zero, and at a slice that leaves its list. No cursor over a
payload of less than `2 ^ 63` octets ever comes to that: the steps of a machine all succeed, and
give what the cursor gives.
-/

namespace Gelf

/-! ### Steps of a machine -/

/-- A number that has to fit in so many bits. -/
def checked (bits n : Nat) : Option Nat := if n < 2 ^ bits then some n else none

theorem checked_of_lt {bits n : Nat} (h : n < 2 ^ bits) : checked bits n = some n := if_pos h

/-- A difference that must not be negative. -/
def checkedSub (m n : Nat) : Option Nat := if n ≤ m then some (m - n) else none

/-- The octets from one position up to another. Both have to be positions of the list, in order. -/
def slice? (octets : List UInt8) (start stop : Nat) : Option (List UInt8) :=
  if start ≤ stop ∧ stop ≤ octets.length then some ((octets.take stop).drop start) else none

def Chunk.checkedSize (chunk : Chunk) : Option Nat :=
  checked 64 (chunk.headerSize + chunk.payload.length)

namespace ChunkCursor

/-- Where the piece at the position of a cursor starts. -/
def start (cursor : ChunkCursor) : Nat := cursor.next.toNat * cursor.usable

/-- The chunk at the position of a cursor, cut out by machine steps. -/
def checkedChunk (cursor : ChunkCursor) : Option Chunk :=
  match cursor.id with
  | none => some { header := none, payload := cursor.payload }
  | some id => do
    let start ← checked 64 cursor.start
    let past ← checked 64 (start + cursor.usable)
    let part ← slice? cursor.payload start (min past cursor.payload.length)
    return { header := some { id, index := cursor.next, count := cursor.count }, payload := part }

/-- `next?` by machine steps. -/
def checkedNext (cursor : ChunkCursor) : Option (Option (Chunk × ChunkCursor)) :=
  if cursor.count ≤ cursor.next then some none
  else do
    let next ← checked 8 (cursor.next.toNat + 1)
    let chunk ← cursor.checkedChunk
    return some (chunk, { cursor with next := UInt8.ofNat next })

/-- `remaining` by machine steps. -/
def checkedRemaining (cursor : ChunkCursor) : Option Nat :=
  checkedSub cursor.count.toNat cursor.next.toNat

/-- The position of a cursor is no chunk beyond the last one, and what comes of it fits. -/
structure WithinWidth (cursor : ChunkCursor) : Prop where
  next_le : cursor.next ≤ cursor.count
  succ_lt : cursor.next < cursor.count → cursor.next.toNat + 1 < 2 ^ 8
  start_lt : cursor.next < cursor.count → cursor.start < 2 ^ 64
  stop_lt : cursor.next < cursor.count → cursor.start + cursor.usable < 2 ^ 64
  start_le : cursor.next < cursor.count →
    cursor.start ≤ min (cursor.start + cursor.usable) cursor.payload.length

variable {cursor chunks : ChunkCursor}

namespace WithinWidth

theorem checkedRemaining_eq (h : cursor.WithinWidth) :
    cursor.checkedRemaining = some cursor.remaining := by
  rw [checkedRemaining, checkedSub, if_pos (UInt8.le_iff_toNat_le.1 h.next_le),
    remaining_eq h.next_le]

theorem checkedChunk_eq (h : cursor.WithinWidth) (hnext : cursor.next < cursor.count) :
    cursor.checkedChunk = some (cursor.chunkAt cursor.next) := by
  rw [checkedChunk, chunkAt]
  cases cursor.id with
  | none => rfl
  | some id =>
    have hpart : slice? cursor.payload cursor.start
        (min (cursor.start + cursor.usable) cursor.payload.length) =
          some ((cursor.payload.drop cursor.start).take cursor.usable) := by
      rw [slice?, if_pos ⟨h.start_le hnext, Nat.min_le_right _ _⟩, List.drop_take, Option.some_inj,
        List.take_eq_take_iff, List.length_drop]
      omega
    simp only [checked_of_lt (h.start_lt hnext), checked_of_lt (h.stop_lt hnext), hpart,
      Option.bind_eq_bind, Option.bind_some]
    rfl

theorem checkedNext_eq (h : cursor.WithinWidth) : cursor.checkedNext = some cursor.next? := by
  rw [checkedNext, next?]
  by_cases hnext : cursor.next < cursor.count
  · have hsucc : UInt8.ofNat (cursor.next.toNat + 1) = cursor.next + 1 := by
      rw [← toNat_next_add_one hnext, UInt8.ofNat_toNat]
    rw [if_neg (UInt8.not_le.2 hnext), if_pos hnext, checked_of_lt (h.succ_lt hnext),
      h.checkedChunk_eq hnext]
    simp only [Option.bind_eq_bind, Option.bind_some, hsucc]
    rfl
  · rw [if_pos (UInt8.not_lt.1 hnext), if_neg hnext]

end WithinWidth

/-! ### Cursors over short payloads -/

theorem withinWidth_of_start_le (hle : cursor.next ≤ cursor.count)
    (h : cursor.next < cursor.count →
      cursor.start ≤ cursor.payload.length ∧ cursor.start + cursor.usable < 2 ^ 64) :
    cursor.WithinWidth where
  next_le := hle
  succ_lt hlt := Nat.lt_of_le_of_lt (UInt8.lt_iff_toNat_lt.1 hlt) cursor.count.toNat_lt
  start_lt hlt := Nat.lt_of_le_of_lt (Nat.le_add_right _ _) (h hlt).2
  stop_lt hlt := (h hlt).2
  start_le hlt := Nat.le_min.2 ⟨Nat.le_add_right _ _, (h hlt).1⟩

/-- The pieces before the one at the position of a cursor do not exhaust the payload, and a piece is
not longer than the payload. -/
theorem withinWidth_of_split {id : MessageId} {payload : List UInt8} {limit : UInt64}
    (hsize : payload.length < 2 ^ 63) (hsplit : split id payload limit = .ok chunks) {next : UInt8}
    (hnext : next ≤ chunks.count) : ({ chunks with next } : ChunkCursor).WithinWidth := by
  let m : Message := ⟨id, payload, limit⟩
  apply withinWidth_of_start_le hnext
  intro hlt
  have hlt' := UInt8.lt_iff_toNat_lt.1 hlt
  by_cases hfits : m.Fits
  · rw [Message.chunks_of_split_of_fits hsplit hfits] at hlt' ⊢
    have hfirst : next.toNat = 0 := Nat.lt_one_iff.1 hlt'
    simp only [start, hfirst, m]
    omega
  · have hcount : (UInt8.ofNat m.chunkCount).toNat = m.chunkCount :=
      toNat_ofNat_of_le_maxChunks (Message.chunkCount_le_of_split hsplit hfits)
    have hlimit : limit.toNat < payload.length := Nat.not_le.1 hfits
    rw [Message.chunks_of_split hsplit hfits] at hlt' ⊢
    rw [hcount] at hlt'
    have hstart : next.toNat * usableSize limit < payload.length := m.mul_usableSize_lt hlt'
    have husable : usableSize limit ≤ payload.length := by
      rw [usableSize]
      omega
    show next.toNat * usableSize limit ≤ payload.length ∧
      next.toNat * usableSize limit + usableSize limit < 2 ^ 64
    omega

theorem payload_of_split {id : MessageId} {payload : List UInt8} {limit : UInt64}
    (hsplit : split id payload limit = .ok chunks) : chunks.payload = payload := by
  let m : Message := ⟨id, payload, limit⟩
  by_cases hfits : m.Fits
  · rw [m.chunks_of_split_of_fits hsplit hfits]
  · rw [m.chunks_of_split hsplit hfits]

/-- A cursor at some position among the chunks of another. -/
def IsAmong (chunks cursor : ChunkCursor) : Prop :=
  ∃ next ≤ chunks.count, cursor = { chunks with next }

theorem IsAmong.next? {chunk : Chunk} {cursor' : ChunkCursor}
    (hsome : cursor.next? = some (chunk, cursor')) (h : IsAmong chunks cursor) :
    IsAmong chunks cursor' := by
  obtain ⟨next, hnext, rfl⟩ := h
  have hle := next_le_count hsome
  obtain ⟨-, -, rfl⟩ := next?_eq_some_iff.1 hsome
  exact ⟨next + 1, hle, rfl⟩

/-- Calls move a cursor, and leave alone what it is a cursor over. -/
theorem isAmong_replay (hstart : chunks.next ≤ chunks.count) (script : List Query) :
    IsAmong chunks (replay ask chunks script).2 :=
  replay_preserves (P := IsAmong chunks) (fun _ query h => ask_preserves IsAmong.next? h query)
    ⟨chunks.next, hstart, rfl⟩ script

/-! ### Chunks -/

theorem mem_of_askList_eq_some {left : List Chunk} {query : Query} {chunk : Chunk}
    (h : (askList left query).1 = .chunk (some chunk)) : chunk ∈ left := by
  cases query with
  | next => exact List.mem_of_mem_head? (Answer.chunk.inj h)
  | nth n => exact List.mem_of_getElem? (Answer.chunk.inj h)
  | last => exact List.mem_of_getLast? (Answer.chunk.inj h)
  | count => cases h
  | length => cases h
  | bounds => cases h

theorem checkedSize_of_length_lt {chunk : Chunk} (h : chunk.payload.length < 2 ^ 63) :
    chunk.checkedSize = some chunk.datagram.length := by
  rw [Chunk.length_datagram]
  apply checked_of_lt
  rw [Chunk.headerSize, chunkHeaderSize]
  split <;> omega

theorem length_payload_chunkAt_le (cursor : ChunkCursor) (index : UInt8) :
    (cursor.chunkAt index).payload.length ≤ cursor.payload.length := by
  rw [chunkAt]
  cases cursor.id with
  | none => exact Nat.le_refl _
  | some id =>
    rw [List.length_take, List.length_drop]
    omega

theorem length_payload_le_of_mem (h : cursor.next ≤ cursor.count) {chunk : Chunk}
    (hchunk : chunk ∈ cursor.collect) : chunk.payload.length ≤ cursor.payload.length := by
  rw [collect_eq_map_range' h] at hchunk
  obtain ⟨i, -, rfl⟩ := List.mem_map.1 hchunk
  exact length_payload_chunkAt_le cursor _

/-- **Machine width.** The count that a cursor gets is the number of pieces, and not cut off. In
whatever state calls leave the cursor, all steps of a machine succeed and give what the cursor
gives, and so does the size of each chunk that it answers with. -/
theorem cursor_stays_within_width {id : MessageId} {payload : List UInt8} {limit : UInt64}
    (hsize : payload.length ≤ 2 ^ 63 - 1) (hsplit : split id payload limit = .ok chunks)
    (script : List Query) :
    let cursor := (replay ask chunks script).2
    chunks.count.toNat = (if payload.length ≤ limit.toNat then 1
      else payload.length ⌈/⌉ max 1 (limit.toNat - 12)) ∧
    cursor.WithinWidth ∧
    cursor.checkedNext = some cursor.next? ∧
    cursor.checkedRemaining = some cursor.remaining ∧
    ∀ query chunk, (cursor.ask query).1 = .chunk (some chunk) →
      chunk.checkedSize = some chunk.datagram.length := by
  intro cursor
  let m : Message := ⟨id, payload, limit⟩
  have hstart : chunks.next ≤ chunks.count := m.next_le_count hsplit
  obtain ⟨next, hnext, hcursor⟩ := isAmong_replay hstart script
  have hwithin : cursor.WithinWidth := by
    rw [show cursor = _ from hcursor]
    exact withinWidth_of_split (by omega) hsplit hnext
  have hpayload : cursor.payload = payload := by
    rw [show cursor = _ from hcursor, ← payload_of_split hsplit]
  refine ⟨?_, hwithin, hwithin.checkedNext_eq, hwithin.checkedRemaining_eq, ?_⟩
  · split
    · rename_i hfits
      rw [m.chunks_of_split_of_fits hsplit hfits]
      rfl
    · rename_i hlong
      have hfew : m.chunkCount ≤ maxChunks := m.chunkCount_le_of_split hsplit hlong
      rw [m.chunks_of_split hsplit hlong, toNat_ofNat_of_le_maxChunks hfew]
      exact chunksNeeded_eq_ceilDiv payload.length limit
  · intro query chunk hanswer
    obtain ⟨hlist, -⟩ := ask_eq_askList hwithin.next_le query
    have hlength := length_payload_le_of_mem hwithin.next_le
      (mem_of_askList_eq_some (hlist.symm.trans hanswer))
    rw [hpayload] at hlength
    exact checkedSize_of_length_lt (by omega)

/-- Three chunks under a limit of 20: the second piece starts at eight and fills its datagram, and
after the third there is no step to make. -/
theorem steps_over_three_chunks_succeed :
    let m : Message := ⟨.ofNat 7, List.replicate 21 (0x61 : UInt8), 20⟩
    ∃ chunks, split m.id m.payload m.limit = .ok chunks ∧ chunks.count.toNat = 3 ∧
      (replay ask chunks [.next]).2.start = 8 ∧ (replay ask chunks [.next]).2.WithinWidth ∧
      (m.chunk 1).checkedSize = some 20 ∧
      (replay ask chunks [.next, .next, .next]).2.checkedNext = some none := by
  intro m
  have hsplit := Message.split_of_not_fits (m := m) (by decide)
  rw [if_neg (by decide)] at hsplit
  have hsize : m.payload.length ≤ 2 ^ 63 - 1 := by decide
  obtain ⟨hcount, hwithin, -, -, hchunk⟩ := cursor_stays_within_width hsize hsplit [.next]
  obtain ⟨-, -, hnext, -⟩ := cursor_stays_within_width hsize hsplit [.next, .next, .next]
  exact ⟨_, hsplit, hcount.trans (by decide), by decide, hwithin,
    (hchunk .next (m.chunk 1) (by decide)).trans (by decide), hnext.trans (by decide)⟩

end ChunkCursor

end Gelf
