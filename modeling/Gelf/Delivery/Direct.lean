import Gelf.Chunk.Cursor
import Gelf.Delivery.Network

/-!
# Direct delivery

The datagrams of a message are sent at once, one after another. The first one that is not written in
full ends the message.
-/

namespace Gelf.Delivery

/-- The error of a datagram that was written in part. -/
def truncated (written size : Nat) : IoError where
  kind := .writeZero
  text := "datagram truncated to " ++ toString written ++ " of " ++ toString size ++ " bytes"

/-- Sends datagrams in order. Gives how many were sent, which is all of them unless there is an
error. -/
def sendAll (net : Network) (target : Endpoint) :
    List Datagram → Wire → Except IoError Nat × Wire
  | [], wire => (.ok 0, wire)
  | d :: ds, wire =>
    let attempt := wire.offer net target d
    let wire := wire ++ [attempt]
    match attempt.outcome with
    | .failed e => (.error e, wire)
    | .written n =>
      if n = d.length then
        let (result, wire) := sendAll net target ds wire
        (result.map (· + 1), wire)
      else (.error (truncated n d.length), wire)

/-- Sends the chunks that a cursor has left. The target is resolved for every message. -/
def sendDirect (net : Network) (target : Target) (chunks : ChunkCursor) (wire : Wire) :
    Except Fault Nat × Wire :=
  match target.resolve net with
  | .error e => (.error (.transport e), wire)
  | .ok endpoint =>
    match net.socketError endpoint.address with
    | some e => (.error (.transport e), wire)
    | none =>
      let (result, wire) := sendAll net endpoint (chunks.collect.map Chunk.datagram) wire
      (result.mapError .transport, wire)

end Gelf.Delivery
