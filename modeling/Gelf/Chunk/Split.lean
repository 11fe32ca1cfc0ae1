import Gelf.Chunk.Cursor
import Gelf.Fault

/-!
# Splitting

Cuts a payload into as few datagrams of limited size as there can be. A limit that leaves no room
beside the chunk header still gives chunks of one octet.
-/

namespace Gelf

def usableSize (limit : UInt64) : Nat := max 1 (limit.toNat - chunkHeaderSize)

def chunksNeeded (size : Nat) (limit : UInt64) : Nat :=
  (size + usableSize limit - 1) / usableSize limit

/-- The chunks of a payload. `id` is used when there is more than one datagram. -/
def split (id : MessageId) (payload : List UInt8) (limit : UInt64) : Except Fault ChunkCursor :=
  if payload.length ≤ limit.toNat then
    .ok { payload, id := none, usable := payload.length, count := 1, next := 0 }
  else
    let needed := chunksNeeded payload.length limit
    if maxChunks < needed then .error (.messageTooLarge payload.length needed)
    else .ok { payload, id := some id, usable := usableSize limit, count := UInt8.ofNat needed,
               next := 0 }

end Gelf
