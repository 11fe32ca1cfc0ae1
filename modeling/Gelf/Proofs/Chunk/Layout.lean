import Gelf.Chunk.Assembly
import Gelf.Chunk.Split

/-!
# The datagrams of a message

What `split` gives, said without a cursor: the payload alone when it fits, and otherwise one chunk
for each index, in order. The pieces of the chunks put one after another are the payload, and the
fields of a chunk can be read off its datagram.
-/

namespace Gelf

/-- Receivers put so few chunks together that an octet holds each index and the count. -/
theorem toNat_ofNat_of_le_maxChunks {n : Nat} (h : n ≤ maxChunks) : (UInt8.ofNat n).toNat = n :=
  UInt8.toNat_ofNat_of_lt' (Nat.lt_of_le_of_lt h (by decide))

namespace ChunkCursor

@[simp]
theorem chunkAt_next (cursor : ChunkCursor) (next index : UInt8) :
    ({ cursor with next } : ChunkCursor).chunkAt index = cursor.chunkAt index := by
  cases cursor with
  | mk payload id usable count _ => cases id <;> rfl

theorem collect_eq_map_range' {cursor : ChunkCursor} (h : cursor.next ≤ cursor.count) :
    cursor.collect =
      (List.range' cursor.next.toNat (cursor.count.toNat - cursor.next.toNat)).map
        fun i => cursor.chunkAt (UInt8.ofNat i) := by
  fun_induction collect cursor with
  | case1 cursor hnone =>
    have heq := UInt8.le_antisymm h (next?_eq_none_iff.1 hnone)
    simp [heq]
  | case2 cursor chunk cursor' hsome hgap ih =>
    have hle := next_le_count hsome
    obtain ⟨hlt, rfl, rfl⟩ := next?_eq_some_iff.1 hsome
    have hlt' := UInt8.lt_iff_toNat_lt.1 hlt
    have hgap' : cursor.count.toNat - cursor.next.toNat =
        cursor.count.toNat - (cursor.next.toNat + 1) + 1 := by omega
    rw [ih hle, hgap', List.range'_succ, List.map_cons, UInt8.ofNat_toNat]
    simp only [toNat_next_add_one hlt, chunkAt_next]

end ChunkCursor

/-- A payload with the id and the limit it is cut by. -/
structure Message where
  id : MessageId
  payload : List UInt8
  limit : UInt64
  deriving DecidableEq

namespace Message

/-- What the chunks of a message become on the wire. A message that cannot be cut has none. -/
def datagrams (m : Message) : List Datagram :=
  match split m.id m.payload m.limit with
  | .ok chunks => chunks.collect.map Chunk.datagram
  | .error _ => []

/-- Whether the payload travels without chunk headers. -/
def Fits (m : Message) : Prop := m.payload.length ≤ m.limit.toNat

instance (m : Message) : Decidable m.Fits := inferInstanceAs (Decidable (_ ≤ _))

def chunkCount (m : Message) : Nat := chunksNeeded m.payload.length m.limit

/-- The part of the payload that the chunk with a given index carries. -/
def piece (m : Message) (i : Nat) : List UInt8 :=
  (m.payload.drop (i * usableSize m.limit)).take (usableSize m.limit)

/-- The datagram of the chunk with a given index. -/
def chunkDatagram (m : Message) (i : Nat) : Datagram :=
  chunkMagic ++ m.id.octets ++ [UInt8.ofNat i, UInt8.ofNat m.chunkCount] ++ m.piece i

/-- The chunk with a given index. -/
def chunk (m : Message) (i : Nat) : Chunk where
  header := some { id := m.id, index := UInt8.ofNat i, count := UInt8.ofNat m.chunkCount }
  payload := m.piece i

/-- All chunks of a message, in order. -/
def chunkList (m : Message) : List Chunk :=
  if m.Fits then [{ header := none, payload := m.payload }]
  else (List.range m.chunkCount).map m.chunk

/-- All datagrams of a message in the order in which they are sent. -/
def layout (m : Message) : List Datagram :=
  if m.Fits then [m.payload] else (List.range m.chunkCount).map m.chunkDatagram

theorem split_of_fits {m : Message} (h : m.Fits) :
    split m.id m.payload m.limit =
      .ok { payload := m.payload, id := none, usable := m.payload.length, count := 1, next := 0 } :=
  if_pos h

theorem split_of_not_fits {m : Message} (h : ¬ m.Fits) :
    split m.id m.payload m.limit =
      if maxChunks < m.chunkCount then .error (.messageTooLarge m.payload.length m.chunkCount)
      else .ok { payload := m.payload, id := some m.id, usable := usableSize m.limit,
                 count := UInt8.ofNat m.chunkCount, next := 0 } :=
  if_neg h

theorem chunkCount_le_of_split {m : Message} {chunks : ChunkCursor}
    (hsplit : split m.id m.payload m.limit = .ok chunks) (h : ¬ m.Fits) :
    m.chunkCount ≤ maxChunks := by
  rw [split_of_not_fits h] at hsplit
  split at hsplit
  · cases hsplit
  · rename_i hfew
    exact Nat.not_lt.1 hfew

theorem chunks_of_split_of_fits {m : Message} {chunks : ChunkCursor}
    (hsplit : split m.id m.payload m.limit = .ok chunks) (h : m.Fits) :
    chunks = { payload := m.payload, id := none, usable := m.payload.length, count := 1,
               next := 0 } := by
  rw [split_of_fits h] at hsplit
  cases hsplit
  rfl

theorem chunks_of_split {m : Message} {chunks : ChunkCursor}
    (hsplit : split m.id m.payload m.limit = .ok chunks) (h : ¬ m.Fits) :
    chunks = { payload := m.payload, id := some m.id, usable := usableSize m.limit,
               count := UInt8.ofNat m.chunkCount, next := 0 } := by
  have hcount := chunkCount_le_of_split hsplit h
  rw [split_of_not_fits h, if_neg (Nat.not_lt.2 hcount)] at hsplit
  cases hsplit
  rfl

theorem next_le_count {m : Message} {chunks : ChunkCursor}
    (hsplit : split m.id m.payload m.limit = .ok chunks) : chunks.next ≤ chunks.count := by
  by_cases h : m.Fits
  · rw [chunks_of_split_of_fits hsplit h]
    exact UInt8.zero_le
  · rw [chunks_of_split hsplit h]
    exact UInt8.zero_le

theorem isUnchunked_iff_fits {m : Message} {chunks : ChunkCursor}
    (hsplit : split m.id m.payload m.limit = .ok chunks) : chunks.isUnchunked = true ↔ m.Fits := by
  by_cases h : m.Fits
  · rw [chunks_of_split_of_fits hsplit h]
    exact iff_of_true rfl h
  · rw [chunks_of_split hsplit h]
    exact iff_of_false (by simp [ChunkCursor.isUnchunked]) h

/-- A cursor goes through the chunks of its message in order. -/
theorem collect_eq_chunkList {m : Message} {chunks : ChunkCursor}
    (hsplit : split m.id m.payload m.limit = .ok chunks) : chunks.collect = m.chunkList := by
  rw [chunkList]
  by_cases h : m.Fits
  · rw [if_pos h, chunks_of_split_of_fits hsplit h, ChunkCursor.collect_eq_map_range' (by simp)]
    rfl
  · have hcount := chunkCount_le_of_split hsplit h
    have hbyte : (UInt8.ofNat m.chunkCount).toNat = m.chunkCount :=
      toNat_ofNat_of_le_maxChunks hcount
    rw [if_neg h, chunks_of_split hsplit h, ChunkCursor.collect_eq_map_range' (by simp),
      List.range_eq_range']
    simp only [hbyte, UInt8.toNat_zero, Nat.sub_zero]
    apply List.map_congr_left
    intro i hi
    have hi' : i ≤ maxChunks := by
      have := List.mem_range'_1.1 hi
      omega
    simp only [ChunkCursor.chunkAt, chunk, piece, toNat_ofNat_of_le_maxChunks hi']

theorem datagrams_eq_layout {m : Message} {chunks : ChunkCursor}
    (hsplit : split m.id m.payload m.limit = .ok chunks) : m.datagrams = m.layout := by
  have hdatagrams : m.datagrams = chunks.collect.map Chunk.datagram := by
    rw [datagrams, hsplit]
  rw [hdatagrams, collect_eq_chunkList hsplit, chunkList, layout]
  by_cases h : m.Fits
  · rw [if_pos h, if_pos h]
    rfl
  · rw [if_neg h, if_neg h, List.map_map]
    rfl

/-! ### Reading a chunk off its datagram -/

@[simp]
theorem isChunk_chunkDatagram (m : Message) (i : Nat) : (m.chunkDatagram i).isChunk = true := by
  simp [Datagram.isChunk, chunkDatagram, chunkMagic]

@[simp]
theorem messageId_chunkDatagram (m : Message) (i : Nat) :
    (m.chunkDatagram i).messageId = m.id.octets := by
  have hid := m.id.length_eq
  simp [Datagram.messageId, chunkDatagram, chunkMagic, ← hid]

@[simp]
theorem index_chunkDatagram (m : Message) (i : Nat) :
    (m.chunkDatagram i).index = UInt8.ofNat i := by
  have hid := m.id.length_eq
  simp [Datagram.index, chunkDatagram, chunkMagic, hid]

@[simp]
theorem count_chunkDatagram (m : Message) (i : Nat) :
    (m.chunkDatagram i).count = UInt8.ofNat m.chunkCount := by
  have hid := m.id.length_eq
  simp [Datagram.count, chunkDatagram, chunkMagic, List.getElem?_append, hid]

@[simp]
theorem part_chunkDatagram (m : Message) (i : Nat) : (m.chunkDatagram i).part = m.piece i := by
  have hid := m.id.length_eq
  simp [Datagram.part, chunkDatagram, chunkMagic, chunkHeaderSize, List.drop_append, hid]

/-! ### The pieces of a payload -/

theorem usableSize_pos (limit : UInt64) : 0 < usableSize limit :=
  Nat.lt_of_lt_of_le Nat.one_pos (Nat.le_max_left _ _)

theorem usableSize_of_room {limit : UInt64} (hroom : chunkHeaderSize < limit.toNat) :
    usableSize limit = limit.toNat - chunkHeaderSize := by
  rw [usableSize]
  omega

theorem length_le_chunkCount_mul (m : Message) :
    m.payload.length ≤ m.chunkCount * usableSize m.limit := by
  have hpos := usableSize_pos m.limit
  have hlt := Nat.lt_div_mul_add (a := m.payload.length + usableSize m.limit - 1) hpos
  unfold chunkCount chunksNeeded
  omega

theorem chunkCount_pos {m : Message} (h : ¬ m.Fits) : 0 < m.chunkCount := by
  have hlength := length_le_chunkCount_mul m
  have hlong : 0 < m.payload.length := Nat.lt_of_le_of_lt (Nat.zero_le _) (Nat.lt_of_not_le h)
  exact Nat.pos_of_ne_zero fun hzero => by simp only [hzero, Nat.zero_mul] at hlength; omega

/-- The chunks that come before a chunk do not exhaust the payload. -/
theorem mul_usableSize_lt {m : Message} {i : Nat} (h : i < m.chunkCount) :
    i * usableSize m.limit < m.payload.length := by
  have hpos := usableSize_pos m.limit
  have hle := (Nat.le_div_iff_mul_le hpos).1 (Nat.succ_le_of_lt h)
  rw [Nat.succ_mul] at hle
  omega

theorem length_piece (m : Message) (i : Nat) :
    (m.piece i).length =
      min (usableSize m.limit) (m.payload.length - i * usableSize m.limit) := by
  rw [piece, List.length_take, List.length_drop]

theorem length_piece_pos {m : Message} {i : Nat} (h : i < m.chunkCount) :
    0 < (m.piece i).length := by
  have hpos := usableSize_pos m.limit
  have hlt := mul_usableSize_lt h
  rw [length_piece]
  omega

theorem length_chunkDatagram (m : Message) (i : Nat) :
    (m.chunkDatagram i).length = chunkHeaderSize + (m.piece i).length := by
  simp only [chunkDatagram, chunkMagic, chunkHeaderSize, List.length_append, m.id.length_eq,
    List.length_cons, List.length_nil]

/-- A limit with room beside the header is kept. -/
theorem length_chunkDatagram_le {m : Message} (hroom : chunkHeaderSize < m.limit.toNat) (i : Nat) :
    (m.chunkDatagram i).length ≤ m.limit.toNat := by
  rw [length_chunkDatagram, length_piece, usableSize_of_room hroom]
  omega

theorem flatMap_range_piece (m : Message) (n : Nat) :
    (List.range n).flatMap m.piece = m.payload.take (n * usableSize m.limit) := by
  induction n with
  | zero => simp
  | succ n ih =>
    rw [List.range_succ, List.flatMap_append, ih, Nat.succ_mul, List.take_add]
    simp [piece]

theorem flatMap_piece (m : Message) : (List.range m.chunkCount).flatMap m.piece = m.payload := by
  rw [flatMap_range_piece, List.take_of_length_le (length_le_chunkCount_mul m)]

end Message

end Gelf
