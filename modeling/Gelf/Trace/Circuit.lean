import Gelf.Shipper.Basic
import Gelf.Trace.Layer

/-!
# Circuits

A layer hands traced events to a shipper, and the shipper may report its faults as traced events in
turn. These come back to the layer before anything else is traced. So what is still to be dispatched
is a stack, and dispatching an event may put a report on it. Each step meets a moment of its own, in
which the world outside answers.
-/

namespace Gelf.Trace

open Delivery (Network Target)

/-- Where reports are traced. It has no part in what they say. -/
structure Site where
  name : String
  file : Option String := none
  line : Option UInt32 := none
  modulePath : Option String := none

/-- A report as it is traced, if it is. -/
def TraceEvent.ofReport? (site : Site) (span : Option String) : Report → Option TraceEvent
  | .fault _ | .line _ => none
  | .event level target message kind error => some
    { name := site.name
      target
      level
      file := site.file
      line := site.line
      modulePath := site.modulePath
      span
      fields := [("message", .text message), ("kind", .text kind), ("error", .text error)] }

/-- What the world outside answers while an event is dispatched. -/
structure Moment where
  clock : Float
  /-- The innermost span that is entered. -/
  span : Option String := none
  transport : Transport
  /-- A transport finds fault with nothing but sending. -/
  failsToSend : ∀ route wire chunks fault, (transport route wire chunks).1 = .error fault →
    ∃ error, fault = .transport error

/-- A moment in which a shipper reaches its target over a network. -/
def Moment.onNetwork (clock : Float) (net : Network) (target : Target) : Moment where
  clock
  transport := .towards net target
  failsToSend _ _ _ _ := Transport.exists_error_of_towards

/-- An event that was handed to a shipper, and how that went. -/
structure Call where
  traced : TraceEvent
  result : Except Fault Nat

structure Circuit where
  shipper : Shipper
  /-- What is still to be dispatched, the next one first. -/
  pending : List TraceEvent
  /-- The calls of the shipper so far, the first one first. -/
  calls : List Call := []

namespace Circuit

/-- Hands an event to the shipper. What the shipper reports meanwhile is dispatched next. -/
def handle (site : Site) (ids : IdSource) (moment : Moment) (circuit : Circuit)
    (traced : TraceEvent) (event : Event) : Circuit :=
  let shipper := circuit.shipper.shipBy moment.transport ids event
  let faults := shipper.reported.drop circuit.shipper.reported.length
  let reports := faults.filterMap fun fault =>
    TraceEvent.ofReport? site moment.span (.ofFault shipper.sink moment.clock fault)
  { shipper
    pending := reports ++ circuit.pending
    calls := circuit.calls ++
      [⟨traced, (circuit.shipper.attemptBy moment.transport ids event).1⟩] }

/-- Dispatches the next event. -/
def step (layer : Layer) (site : Site) (ids : IdSource) (circuit : Circuit) (moment : Moment) :
    Circuit :=
  match circuit.pending with
  | [] => circuit
  | traced :: rest =>
    let circuit := { circuit with pending := rest }
    match layer.event? moment.clock traced with
    | none => circuit
    | some event => circuit.handle site ids moment traced event

def run (layer : Layer) (site : Site) (ids : IdSource) (circuit : Circuit)
    (moments : List Moment) : Circuit :=
  moments.foldl (step layer site ids) circuit

end Circuit

end Gelf.Trace
