import Gelf.Chunk.Assembly
import Gelf.Codec
import Gelf.Record.Reader

/-!
# Receivers

What is on the other side of the network: datagrams come in any order, and the receiver gets records
out of them.
-/

namespace Gelf.Receiver

/-- The ids of the messages that came in chunks, each of them once. -/
def messageIds (ds : List Datagram) : List (List UInt8) :=
  ((ds.filter Datagram.isChunk).map Datagram.messageId).eraseDups

/-- The payload of a message that came in chunks, when it is complete. -/
def assembled? (ds : List Datagram) (id : List UInt8) : Option (List UInt8) :=
  let chunks := Assembly.chunksOf id ds
  if Assembly.isComplete chunks then some (Assembly.joined chunks) else none

def payloads (ds : List Datagram) : List (List UInt8) :=
  ds.filter (fun d => !d.isChunk) ++ (messageIds ds).filterMap (assembled? ds)

/-- The compression of a payload, which a receiver tells from its first octets. -/
def compressionOf (payload : List UInt8) : Compression :=
  if [0x1f, 0x8b].isPrefixOf payload then .gzip
  else if [0x78].isPrefixOf payload then .zlib
  else .none

/-- The record of a payload, if it has one. -/
def record? (codec : Codec) (payload : List UInt8) : Option Record :=
  (codec.expand? (compressionOf payload) payload).bind fun bytes => (Record.read bytes).toOption

def records (codec : Codec) (ds : List Datagram) : List Record :=
  (payloads ds).filterMap (record? codec)

end Gelf.Receiver
