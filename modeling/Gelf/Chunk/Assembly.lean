import Gelf.Chunk.Basic

/-!
# Putting chunks together

A datagram that begins with the magic carries a chunk, and any other is a payload of its own. The
chunks of a message share its id. They may come in any order and more than once, and the message is
complete when as many indices have come as its chunks say.
-/

namespace Gelf

namespace Datagram

def isChunk (d : Datagram) : Bool := chunkMagic.isPrefixOf d

def messageId (d : Datagram) : List UInt8 := (d.drop 2).take 8

def index (d : Datagram) : UInt8 := d.getD 10 0

def count (d : Datagram) : UInt8 := d.getD 11 0

def part (d : Datagram) : List UInt8 := d.drop chunkHeaderSize

end Datagram

namespace Assembly

def chunksOf (id : List UInt8) (ds : List Datagram) : List Datagram :=
  ds.filter fun d => d.isChunk && d.messageId = id

/-- The indices of chunks, each of them once. -/
def indices (chunks : List Datagram) : List UInt8 := (chunks.map Datagram.index).eraseDups

/-- Whether all chunks of a message are among those that came. -/
def isComplete (chunks : List Datagram) : Bool :=
  match chunks with
  | [] => false
  | chunk :: _ => (indices chunks).length = chunk.count.toNat

/-- The parts of a message one after another, in order of their indices. -/
def joined (chunks : List Datagram) : List UInt8 :=
  ((indices chunks).mergeSort fun i j => i ≤ j).flatMap fun i =>
    ((chunks.find? fun chunk => chunk.index = i).map Datagram.part).getD []

end Assembly

end Gelf
