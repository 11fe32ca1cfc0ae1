import Gelf.Proofs.Delivery.Draining
import Gelf.Proofs.Delivery.Sending
import Gelf.Shipper.Run

/-!
# What a step changes

A step of a shipper changes its route and its wire, and handling an event makes an entry in its
books as well. What the shipper was built with stays, and so does all that was sent.
-/

namespace Gelf.Shipper

open Delivery (Network Target)

theorem step_ship (net : Network) (ids : IdSource) (shipper : Shipper) (event : Event) :
    (shipper.step net ids (.ship event)).2 =
      (shipper.attempt net ids event).2.account (shipper.attempt net ids event).1 := rfl

section Attempt

variable {ids : IdSource} {shipper : Shipper} {event : Event}

/-- An event that is not cut reaches no transport. -/
theorem attemptBy_of_error {fault : Fault}
    (h : shipper.pipeline.chunks (ids shipper.issued) event = .error fault)
    (transport : Transport) : shipper.attemptBy transport ids event =
      (.error fault, { shipper with issued := shipper.issued + 1 }) := by
  rw [attemptBy, h]
  rfl

theorem attemptBy_of_ok {chunks : ChunkCursor}
    (h : shipper.pipeline.chunks (ids shipper.issued) event = .ok chunks)
    (transport : Transport) : shipper.attemptBy transport ids event =
      Shipper.sendBy transport { shipper with issued := shipper.issued + 1 } chunks := by
  rw [attemptBy, h]
  rfl

end Attempt

theorem exists_sendSplitBy_eq (transport : Transport) (shipper : Shipper)
    (chunks : Except Fault ChunkCursor) :
    ∃ route wire, (shipper.sendSplitBy transport chunks).2 =
      { shipper with issued := shipper.issued + 1, route, wire } := by
  cases chunks with
  | error fault => exact ⟨_, _, rfl⟩
  | ok cursor => exact ⟨_, _, rfl⟩

theorem exists_connect_eq (net : Network) (shipper : Shipper) :
    ∃ route wire, (shipper.connect net).2 = { shipper with route, wire } := by
  rw [connect]
  split
  · exact ⟨_, _, rfl⟩
  · split <;> exact ⟨_, _, rfl⟩

theorem exists_dropConnection_eq (shipper : Shipper) :
    ∃ route, shipper.dropConnection = { shipper with route } := by
  rw [dropConnection]
  split <;> exact ⟨_, rfl⟩

/-! ### What a shipper was built with -/

def setup (shipper : Shipper) : Pipeline × Sink × Target :=
  (shipper.pipeline, shipper.sink, shipper.target)

theorem target_eq_of_setup_eq {shipper shipper' : Shipper} (h : shipper'.setup = shipper.setup) :
    shipper'.target = shipper.target :=
  congrArg (fun setup => setup.2.2) h

theorem setup_sendSplitBy (transport : Transport) (shipper : Shipper)
    (chunks : Except Fault ChunkCursor) :
    (shipper.sendSplitBy transport chunks).2.setup = shipper.setup := by
  obtain ⟨route, wire, heq⟩ := exists_sendSplitBy_eq transport shipper chunks
  rw [heq]
  rfl

theorem setup_attempt (net : Network) (ids : IdSource) (shipper : Shipper) (event : Event) :
    (shipper.attempt net ids event).2.setup = shipper.setup :=
  setup_sendSplitBy _ shipper _

theorem setup_account (shipper : Shipper) (result : Except Fault Nat) :
    (shipper.account result).setup = shipper.setup := by
  cases result <;> rfl

theorem setup_connect (net : Network) (shipper : Shipper) :
    (shipper.connect net).2.setup = shipper.setup := by
  obtain ⟨route, wire, heq⟩ := exists_connect_eq net shipper
  rw [heq]
  rfl

theorem setup_step (net : Network) (ids : IdSource) (shipper : Shipper) (step : Step) :
    (shipper.step net ids step).2.setup = shipper.setup := by
  cases step with
  | ship event =>
    rw [step_ship, setup_account]
    exact setup_attempt net ids shipper event
  | attempt event => exact setup_attempt net ids shipper event
  | send payload limit => exact setup_sendSplitBy _ shipper _
  | connect => exact setup_connect net shipper
  | dropConnection =>
    obtain ⟨route, heq⟩ := exists_dropConnection_eq shipper
    rw [step, heq]
    rfl
  | dropSender => rfl

/-! ### What was sent -/

theorem wire_account (shipper : Shipper) (result : Except Fault Nat) :
    (shipper.account result).wire = shipper.wire := by
  cases result <;> rfl

theorem prefix_send (net : Network) (shipper : Shipper) (chunks : ChunkCursor) :
    shipper.wire <+: (shipper.send net chunks).2.wire := by
  cases hroute : shipper.route with
  | direct =>
    rw [send_of_direct hroute]
    exact Delivery.prefix_sendDirect _ _ _ _
  | queued queue =>
    have hsame : (shipper.send net chunks).2.wire = shipper.wire :=
      congrArg (fun sent => sent.2.wire) (send_of_queued hroute chunks)
    exact ⟨[], (List.append_nil _).trans hsame.symm⟩

theorem prefix_sendSplit (net : Network) (shipper : Shipper) (chunks : Except Fault ChunkCursor) :
    shipper.wire <+: (shipper.sendSplit net chunks).2.wire := by
  cases chunks with
  | error fault => exact List.prefix_rfl
  | ok cursor => exact prefix_send net { shipper with issued := shipper.issued + 1 } cursor

theorem prefix_connect (net : Network) (shipper : Shipper) :
    shipper.wire <+: (shipper.connect net).2.wire := by
  rw [connect]
  split
  · exact List.prefix_rfl
  · split
    · obtain ⟨sent, hwire, -⟩ := Delivery.connect_drains net shipper.target shipper.isLive _
        shipper.wire
      exact ⟨sent, hwire.symm⟩
    · exact List.prefix_rfl

theorem prefix_step (net : Network) (ids : IdSource) (shipper : Shipper) (step : Step) :
    shipper.wire <+: (shipper.step net ids step).2.wire := by
  cases step with
  | ship event =>
    rw [step_ship, wire_account]
    exact prefix_sendSplit net shipper _
  | attempt event => exact prefix_sendSplit net shipper _
  | send payload limit => exact prefix_sendSplit net shipper _
  | connect => exact prefix_connect net shipper
  | dropConnection =>
    obtain ⟨route, heq⟩ := exists_dropConnection_eq shipper
    exact ⟨[], (List.append_nil _).trans (congrArg wire heq).symm⟩
  | dropSender => exact List.prefix_rfl

/-- No step takes anything off the wire. -/
theorem prefix_run (ids : IdSource) (shipper : Shipper) (steps : List (Network × Step)) :
    shipper.wire <+: (shipper.run ids steps).2.wire := by
  induction steps generalizing shipper with
  | nil => exact List.prefix_rfl
  | cons s steps ih => exact (prefix_step s.1 ids shipper s.2).trans (ih _)

end Gelf.Shipper
