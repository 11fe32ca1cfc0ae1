import Gelf.Delivery.Connection
import Gelf.Delivery.Direct
import Gelf.Shipper.Builder

/-!
# Shippers

A shipper takes events and never fails its caller. What goes wrong is counted and reported. Direct
shippers send at once, and queued ones leave the sending to a connection. All that happens is a step
on one state, with the network as a parameter of the step.
-/

namespace Gelf

open Delivery (Network Queue Target Wire)

/-- What a shipper counts. The numbers wrap at 64 bits. -/
structure Counters where
  handled : UInt64 := 0
  /-- Datagrams that were handed on for them. -/
  sent : UInt64 := 0
  dropped : UInt64 := 0
  deriving DecidableEq, Repr

inductive Route
  | direct
  | queued (queue : Queue)
  deriving DecidableEq

/-- Anything that chunks can be handed to. It answers, and leaves a route and a wire behind. -/
abbrev Transport := Route → Wire → ChunkCursor → Except Fault Nat × Route × Wire

/-- The transport to a target. Direct routes send at once, and the others queue. -/
def Transport.towards (net : Network) (target : Target) : Transport := fun route wire chunks =>
  match route with
  | .direct =>
    let (result, wire) := Delivery.sendDirect net target chunks wire
    (result, .direct, wire)
  | .queued queue =>
    let (result, queue) := queue.offer chunks
    (result, .queued queue, wire)

/-- It finds fault with nothing but sending. -/
theorem Transport.exists_error_of_towards {net : Network} {target : Target} {route : Route}
    {wire : Wire} {chunks : ChunkCursor} {fault : Fault}
    (h : (Transport.towards net target route wire chunks).1 = .error fault) :
    ∃ error, fault = .transport error := by
  cases route with
  | direct =>
    simp only [Transport.towards, Delivery.sendDirect] at h
    split at h
    · exact ⟨_, (Except.error.inj h).symm⟩
    · split at h
      · exact ⟨_, (Except.error.inj h).symm⟩
      · generalize Delivery.sendAll net _ (chunks.collect.map Chunk.datagram) wire = sent at h
        obtain ⟨result, wire'⟩ := sent
        cases result with
        | error e => exact ⟨e, (Except.error.inj h).symm⟩
        | ok n => cases h
  | queued queue =>
    simp only [Transport.towards, Delivery.Queue.offer] at h
    split at h
    · exact ⟨_, (Except.error.inj h).symm⟩
    · cases h

structure Shipper where
  pipeline : Pipeline
  sink : Sink := .stderr
  target : Target
  route : Route
  counters : Counters := {}
  /-- The faults that were reported, the first one first. -/
  reported : List Fault := []
  wire : Wire := []
  /-- How many message ids were used. -/
  issued : Nat := 0
  /-- Whether anything can still be given to the shipper. -/
  isLive : Bool := true

/-- Where message ids come from. -/
abbrev IdSource := Nat → MessageId

namespace Builder

def direct (builder : Builder) (hostname : Hostname) (target : Target) (codec : Codec := .own) :
    Except BuildError Shipper :=
  (builder.build hostname codec).map fun pipeline =>
    { pipeline, sink := builder.sink, target, route := .direct }

/-- A shipper with a queue of up to `buffer` datagrams, but at least one. -/
def queued (builder : Builder) (hostname : Hostname) (target : Target) (buffer : Nat)
    (codec : Codec := .own) : Except BuildError Shipper :=
  (builder.build hostname codec).map fun pipeline =>
    { pipeline, sink := builder.sink, target, route := .queued (.new buffer) }

variable {builder : Builder} {hostname : Hostname} {target : Target} {codec : Codec}
  {shipper : Shipper}

theorem exists_of_direct (h : builder.direct hostname target codec = .ok shipper) :
    ∃ pipeline, builder.build hostname codec = .ok pipeline ∧
      shipper = { pipeline, sink := builder.sink, target, route := .direct } := by
  rw [direct] at h
  cases hpipeline : builder.build hostname codec with
  | error e =>
    rw [hpipeline] at h
    cases h
  | ok pipeline =>
    rw [hpipeline] at h
    exact ⟨pipeline, rfl, (Except.ok.inj h).symm⟩

theorem exists_of_queued {buffer : Nat}
    (h : builder.queued hostname target buffer codec = .ok shipper) :
    ∃ pipeline, builder.build hostname codec = .ok pipeline ∧
      shipper = { pipeline, sink := builder.sink, target, route := .queued (.new buffer) } := by
  rw [queued] at h
  cases hpipeline : builder.build hostname codec with
  | error e =>
    rw [hpipeline] at h
    cases h
  | ok pipeline =>
    rw [hpipeline] at h
    exact ⟨pipeline, rfl, (Except.ok.inj h).symm⟩

end Builder

namespace Shipper

def ofConfig (config : Config) (hostname : Hostname) (codec : Codec := .own) :
    Except BuildError Shipper :=
  (Builder.ofConfig config).direct hostname { host := config.host, port := config.port } codec

/-- Hands chunks to a transport. It changes nothing but the route and the wire. -/
def sendBy (transport : Transport) (shipper : Shipper) (chunks : ChunkCursor) :
    Except Fault Nat × Shipper :=
  let (result, route, wire) := transport shipper.route shipper.wire chunks
  (result, { shipper with route, wire })

/-- Hands on what was cut, if it could be cut, and uses up a message id. -/
def sendSplitBy (transport : Transport) (shipper : Shipper) (chunks : Except Fault ChunkCursor) :
    Except Fault Nat × Shipper :=
  let shipper := { shipper with issued := shipper.issued + 1 }
  match chunks with
  | .error fault => (.error fault, shipper)
  | .ok chunks => shipper.sendBy transport chunks

/-- Ships an event and tells how many datagrams it took. Nothing is counted or reported. -/
def attemptBy (transport : Transport) (ids : IdSource) (shipper : Shipper) (event : Event) :
    Except Fault Nat × Shipper :=
  shipper.sendSplitBy transport (shipper.pipeline.chunks (ids shipper.issued) event)

/-- Counts the outcome of a handled event, and reports its fault. -/
def account (shipper : Shipper) (result : Except Fault Nat) : Shipper :=
  let counters := shipper.counters
  match result with
  | .ok n =>
    { shipper with
      counters := { counters with
        handled := counters.handled + 1, sent := counters.sent + UInt64.ofNat n } }
  | .error fault =>
    { shipper with
      counters := { counters with
        handled := counters.handled + 1, dropped := counters.dropped + 1 }
      reported := shipper.reported ++ [fault] }

/-- Ships an event and keeps a failure to itself. -/
def shipBy (transport : Transport) (ids : IdSource) (shipper : Shipper) (event : Event) : Shipper :=
  let (result, shipper) := shipper.attemptBy transport ids event
  shipper.account result

/-! ### On a network -/

def send (net : Network) (shipper : Shipper) (chunks : ChunkCursor) : Except Fault Nat × Shipper :=
  shipper.sendBy (.towards net shipper.target) chunks

theorem send_of_direct {net : Network} {shipper : Shipper} (hroute : shipper.route = .direct)
    (chunks : ChunkCursor) :
    shipper.send net chunks =
      ((Delivery.sendDirect net shipper.target chunks shipper.wire).1,
        { shipper with
          wire := (Delivery.sendDirect net shipper.target chunks shipper.wire).2 }) := by
  simp only [send, sendBy, Transport.towards, hroute]

theorem send_of_queued {net : Network} {shipper : Shipper} {queue : Queue}
    (hroute : shipper.route = .queued queue) (chunks : ChunkCursor) :
    shipper.send net chunks =
      ((queue.offer chunks).1, { shipper with route := .queued (queue.offer chunks).2 }) := by
  simp only [send, sendBy, Transport.towards, hroute]

def sendSplit (net : Network) (shipper : Shipper) (chunks : Except Fault ChunkCursor) :
    Except Fault Nat × Shipper :=
  shipper.sendSplitBy (.towards net shipper.target) chunks

theorem sendSplit_error (net : Network) (shipper : Shipper) (fault : Fault) :
    shipper.sendSplit net (.error fault) =
      (.error fault, { shipper with issued := shipper.issued + 1 }) := rfl

theorem sendSplit_ok (net : Network) (shipper : Shipper) (chunks : ChunkCursor) :
    shipper.sendSplit net (.ok chunks) =
      Shipper.send net { shipper with issued := shipper.issued + 1 } chunks := rfl

theorem sendSplit_of_direct {net : Network} {shipper : Shipper} (hroute : shipper.route = .direct)
    (chunks : ChunkCursor) :
    shipper.sendSplit net (.ok chunks) =
      ((Delivery.sendDirect net shipper.target chunks shipper.wire).1,
        { shipper with
          issued := shipper.issued + 1
          wire := (Delivery.sendDirect net shipper.target chunks shipper.wire).2 }) := by
  have hissued : Shipper.route { shipper with issued := shipper.issued + 1 } = .direct := hroute
  rw [sendSplit_ok, send_of_direct hissued]

theorem sendSplit_of_queued {net : Network} {shipper : Shipper} {queue : Queue}
    (hroute : shipper.route = .queued queue) (chunks : ChunkCursor) :
    shipper.sendSplit net (.ok chunks) =
      ((queue.offer chunks).1,
        { shipper with
          issued := shipper.issued + 1
          route := .queued (queue.offer chunks).2 }) := by
  have hissued : Shipper.route { shipper with issued := shipper.issued + 1 } = .queued queue :=
    hroute
  rw [sendSplit_ok, send_of_queued hissued]

def attempt (net : Network) (ids : IdSource) (shipper : Shipper) (event : Event) :
    Except Fault Nat × Shipper :=
  shipper.attemptBy (.towards net shipper.target) ids event

theorem attempt_eq_sendSplit (net : Network) (ids : IdSource) (shipper : Shipper) (event : Event) :
    shipper.attempt net ids event =
      shipper.sendSplit net (shipper.pipeline.chunks (ids shipper.issued) event) := rfl

def sendPayload (net : Network) (ids : IdSource) (shipper : Shipper) (payload : List UInt8)
    (limit : UInt64) : Except Fault Nat × Shipper :=
  shipper.sendSplit net (split (ids shipper.issued) payload limit)

def ship (net : Network) (ids : IdSource) (shipper : Shipper) (event : Event) : Shipper :=
  shipper.shipBy (.towards net shipper.target) ids event

/-- Runs the connection of a queued shipper, if it has one, until it can do nothing more. -/
def connect (net : Network) (shipper : Shipper) : Option Delivery.Ending × Shipper :=
  match shipper.route with
  | .direct => (none, shipper)
  | .queued queue =>
    if queue.isOpen then
      let drained := Delivery.connect net shipper.target shipper.isLive queue.waiting shipper.wire
      (some drained.ending,
        { shipper with
          route := .queued (queue.drainedTo drained.waiting)
          wire := drained.wire })
    else (none, shipper)

def dropConnection (shipper : Shipper) : Shipper :=
  match shipper.route with
  | .direct => shipper
  | .queued queue => { shipper with route := .queued queue.close }

/-- Gives up the sending side. What is queued stays. -/
def dropSender (shipper : Shipper) : Shipper := { shipper with isLive := false }

def connectionTarget? (shipper : Shipper) : Option Target :=
  match shipper.route with
  | .direct => none
  | .queued queue => if queue.isOpen then some shipper.target else none

def delivered (shipper : Shipper) : List Datagram := shipper.wire.delivered

def accepted (shipper : Shipper) : List Datagram :=
  match shipper.route with
  | .direct => []
  | .queued queue => queue.accepted

end Shipper

end Gelf
