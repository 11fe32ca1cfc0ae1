/-!
# Chunks

A payload that fits is one datagram. A longer one is cut into chunks, and the datagram of a chunk
begins with twelve octets: two of magic, eight of message id, the index of the chunk and the count
of chunks.
-/

namespace Gelf

abbrev Datagram := List UInt8

/-- The octets shared by the chunks of one message. -/
structure MessageId where
  octets : List UInt8
  length_eq : octets.length = 8
  deriving DecidableEq

namespace MessageId

/-- The octets of a number, the lowest first. -/
def ofNat (n : Nat) : MessageId :=
  ⟨(List.range 8).map fun i => UInt8.ofNat (n >>> (8 * i)), by simp⟩

def ofOctets? (octets : List UInt8) : Option MessageId :=
  if h : octets.length = 8 then some ⟨octets, h⟩ else none

/-- The hexadecimal text of an id, in the words of reports. -/
def describe (id : MessageId) : String :=
  "MessageId(" ++
    String.ofList (id.octets.flatMap fun b =>
      [Nat.digitChar (b.toNat / 16), Nat.digitChar (b.toNat % 16)]) ++ ")"

end MessageId

/-- The first octets of the datagram of a chunk. -/
def chunkMagic : List UInt8 := [0x1e, 0x0f]

/-- How many octets of the datagram of a chunk stand before its payload. -/
def chunkHeaderSize : Nat := 12

/-- The size of datagrams that fits in one frame of the usual network. -/
def defaultMaxChunkSize : UInt64 := 1420

structure ChunkHeader where
  id : MessageId
  index : UInt8
  count : UInt8
  deriving DecidableEq

namespace ChunkHeader

def octets (header : ChunkHeader) : List UInt8 :=
  chunkMagic ++ header.id.octets ++ [header.index, header.count]

theorem length_octets (header : ChunkHeader) : header.octets.length = chunkHeaderSize := by
  simp [octets, chunkMagic, chunkHeaderSize, header.id.length_eq]

def describe (header : ChunkHeader) : String :=
  "ChunkHeader \x7b message_id: " ++ header.id.describe ++ ", index: " ++
    toString header.index.toNat ++ ", count: " ++ toString header.count.toNat ++ " \x7d"

end ChunkHeader

structure Chunk where
  /-- A message of one datagram has no header. -/
  header : Option ChunkHeader
  payload : List UInt8
  deriving DecidableEq

namespace Chunk

def headerSize (chunk : Chunk) : Nat := if chunk.header.isSome then chunkHeaderSize else 0

def size (chunk : Chunk) : Nat := chunk.headerSize + chunk.payload.length

def datagram (chunk : Chunk) : Datagram :=
  (chunk.header.map ChunkHeader.octets).getD [] ++ chunk.payload

theorem length_datagram (chunk : Chunk) : chunk.datagram.length = chunk.size := by
  cases h : chunk.header <;>
    simp [datagram, size, headerSize, h, ChunkHeader.length_octets]

end Chunk

end Gelf
