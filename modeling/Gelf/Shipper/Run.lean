import Gelf.Shipper.Basic

/-!
# Runs of shippers

Sequences of steps. Each step meets a network of its own, so that the world may change between
steps.
-/

namespace Gelf

open Delivery (Ending Network)

inductive Step
  | ship (event : Event)
  | attempt (event : Event)
  | send (payload : List UInt8) (limit : UInt64)
  | connect
  | dropConnection
  | dropSender

inductive StepResult
  | nothing
  | sent (result : Except Fault Nat)
  | ended (ending : Option Ending)

namespace Shipper

def step (net : Network) (ids : IdSource) (shipper : Shipper) : Step → StepResult × Shipper
  | .ship event => (.nothing, shipper.ship net ids event)
  | .attempt event =>
    let (result, shipper) := shipper.attempt net ids event
    (.sent result, shipper)
  | .send payload limit =>
    let (result, shipper) := shipper.sendPayload net ids payload limit
    (.sent result, shipper)
  | .connect =>
    let (ending, shipper) := shipper.connect net
    (.ended ending, shipper)
  | .dropConnection => (.nothing, shipper.dropConnection)
  | .dropSender => (.nothing, shipper.dropSender)

def run (ids : IdSource) (shipper : Shipper) :
    List (Network × Step) → List StepResult × Shipper
  | [] => ([], shipper)
  | (net, step) :: steps =>
    let (result, shipper) := shipper.step net ids step
    let (results, shipper) := run ids shipper steps
    (result :: results, shipper)

end Shipper

end Gelf
