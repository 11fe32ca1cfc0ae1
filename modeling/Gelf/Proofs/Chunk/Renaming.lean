import Gelf.Proofs.Chunk.Layout

/-!
# Messages under other ids

The id of a message stands in the headers of its chunks and nowhere else. How a payload is cut does
not depend on it. So a message under another id has the same datagrams, up to that id in each chunk.
-/

namespace Gelf

/-- The datagram with another message id, when it is a chunk. -/
def Datagram.withId (id : MessageId) (d : Datagram) : Datagram :=
  if d.isChunk then d.take 2 ++ id.octets ++ d.drop 10 else d

theorem split_map_remaining (id id' : MessageId) (payload : List UInt8) (limit : UInt64) :
    (split id' payload limit).map ChunkCursor.remaining =
      (split id payload limit).map ChunkCursor.remaining := by
  unfold split
  split
  · rfl
  · dsimp only
    split <;> rfl

namespace Message

variable {m m' : Message}

/-- The same message under another id. Its payload is not taken for a chunk. -/
structure Renames (m m' : Message) : Prop where
  payload : m'.payload = m.payload
  limit : m'.limit = m.limit
  plain : Datagram.isChunk m.payload = false

theorem withId_chunkDatagram (m : Message) (id : MessageId) (i : Nat) :
    (m.chunkDatagram i).withId id = ({ m with id } : Message).chunkDatagram i := by
  have hid := m.id.length_eq
  rw [Datagram.withId, if_pos (isChunk_chunkDatagram m i)]
  simp [chunkDatagram, chunkMagic, hid, piece, chunkCount]

namespace Renames

theorem eq_with (h : Renames m m') : m' = { m with id := m'.id } := by
  cases m'
  cases h.payload
  cases h.limit
  rfl

theorem layout (h : Renames m m') : m'.layout = m.layout.map (Datagram.withId m'.id) := by
  rw [h.eq_with]
  by_cases hfits : m.Fits
  · have hfits' : ({ m with id := m'.id } : Message).Fits := hfits
    simp [Message.layout, if_pos hfits, if_pos hfits', Datagram.withId, h.plain]
  · have hfits' : ¬ ({ m with id := m'.id } : Message).Fits := hfits
    rw [Message.layout, Message.layout, if_neg hfits, if_neg hfits', List.map_map]
    exact List.map_congr_left fun i _ => (withId_chunkDatagram m m'.id i).symm

theorem datagrams (h : Renames m m') :
    m'.datagrams = m.datagrams.map (Datagram.withId m'.id) := by
  have hsame := split_map_remaining m.id m'.id m'.payload m'.limit
  cases hsplit : split m.id m'.payload m'.limit with
  | error fault =>
    cases hsplit' : split m'.id m'.payload m'.limit with
    | error fault' =>
      rw [h.payload, h.limit] at hsplit
      simp only [Message.datagrams, hsplit, hsplit', List.map_nil]
    | ok chunks' =>
      rw [hsplit, hsplit'] at hsame
      cases hsame
  | ok chunks =>
    cases hsplit' : split m'.id m'.payload m'.limit with
    | error fault' =>
      rw [hsplit, hsplit'] at hsame
      cases hsame
    | ok chunks' =>
      rw [h.payload, h.limit] at hsplit
      rw [datagrams_eq_layout hsplit, datagrams_eq_layout hsplit', h.layout]

end Renames

end Message

end Gelf
