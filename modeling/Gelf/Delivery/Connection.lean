import Gelf.Delivery.Queue

/-!
# Connections

A connection empties the queue towards the addresses of its target, one address after another. On
its way to the network a datagram passes three places, each of which holds one at most: it is held
by the connection, then it is in the slot of a sink, and then in the buffer of a socket, which sends
it when the next one comes. When a send fails, the datagrams in all three places are gone.
-/

namespace Gelf.Delivery

structure Forwarding where
  waiting : List Datagram
  wire : Wire
  error : Option IoError

/-- The error of a datagram that was written in part. -/
def notEntire : IoError where
  kind := .other
  text := "failed to write entire datagram to socket"

/-- The error of an outcome, if the datagram was not written in full. -/
def Outcome.error? (outcome : Outcome) (size : Nat) : Option IoError :=
  match outcome with
  | .failed e => some e
  | .written n => if n = size then none else some notEntire

/-- The places between the queue and the network. -/
structure Relay where
  /-- What was taken out of the queue last. -/
  held : Option Datagram := none
  slot : Option Datagram := none
  buffer : Option Datagram := none
  wire : Wire

/-- A send that failed, at the end of what was sent. -/
structure Breakdown where
  error : IoError
  wire : Wire

/-- What comes of a relay that has emptied the queue. -/
def Forwarding.atEnd : Except Breakdown Relay → Forwarding
  | .error broken => { waiting := [], wire := broken.wire, error := some broken.error }
  | .ok relay => { waiting := [], wire := relay.wire, error := none }

namespace Relay

/-- Sends what is in the buffer. -/
def flush (net : Network) (target : Endpoint) (relay : Relay) : Except Breakdown Relay :=
  match relay.buffer with
  | none => .ok relay
  | some d =>
    let attempt := relay.wire.offer net target d
    let wire := relay.wire ++ [attempt]
    match attempt.outcome.error? d.length with
    | none => .ok { relay with buffer := none, wire }
    | some error => .error { error, wire }

/-- Moves what is in the slot to the buffer, which is flushed first. -/
def advance (net : Network) (target : Endpoint) (relay : Relay) : Except Breakdown Relay :=
  match relay.slot with
  | none => .ok relay
  | some d =>
    (relay.flush net target).map fun relay => { relay with slot := none, buffer := some d }

/-- Moves what is held to the slot, which is emptied first. -/
def load (net : Network) (target : Endpoint) (relay : Relay) : Except Breakdown Relay :=
  match relay.held with
  | none => .ok relay
  | some d =>
    (relay.advance net target).map fun relay => { relay with held := none, slot := some d }

/-- Sends all that is in the slot and in the buffer. -/
def settle (net : Network) (target : Endpoint) (relay : Relay) : Except Breakdown Relay :=
  (relay.advance net target).bind (flush net target)

/-- Takes datagrams out of the queue until it is empty or a send fails. -/
def run (net : Network) (target : Endpoint) (relay : Relay) (waiting : List Datagram) :
    Forwarding :=
  match relay.load net target with
  | .error broken => { waiting, wire := broken.wire, error := some broken.error }
  | .ok relay =>
    match waiting with
    | [] => .atEnd (relay.settle net target)
    | d :: ds => run net target { relay with held := some d } ds

end Relay

inductive Ending
  /-- It waits for more datagrams. -/
  | idle
  /-- It returned, with the errors of the addresses that failed. -/
  | returned (errors : List (Address × IoError))
  deriving DecidableEq

structure Drained where
  ending : Ending
  waiting : List Datagram
  wire : Wire

/-- Tries addresses one after another, given the errors of those before. An address without an error
empties the queue. The connection then waits for more, as long as there is a sender. -/
def drainTo (net : Network) (port : UInt16) (hasSender : Bool) :
    List Address → List (Address × IoError) → List Datagram → Wire → Drained
  | [], errors, waiting, wire => { ending := .returned errors, waiting, wire }
  | address :: rest, errors, waiting, wire =>
    match net.socketError address with
    | some e => drainTo net port hasSender rest (errors ++ [(address, e)]) waiting wire
    | none =>
      let f := Relay.run net ⟨address, port⟩ { wire } waiting
      match f.error with
      | some e => drainTo net port hasSender rest (errors ++ [(address, e)]) f.waiting f.wire
      | none =>
        { ending := if hasSender then .idle else .returned errors
          waiting := f.waiting
          wire := f.wire }

/-- Runs a connection. A target that does not resolve has no addresses. -/
def connect (net : Network) (target : Target) (hasSender : Bool) (waiting : List Datagram)
    (wire : Wire) : Drained :=
  let addresses := match target.addresses net with
    | .ok addresses => addresses
    | .error _ => []
  drainTo net target.port hasSender addresses [] waiting wire

end Gelf.Delivery
