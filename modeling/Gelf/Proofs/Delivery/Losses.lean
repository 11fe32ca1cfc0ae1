import Gelf.Proofs.Delivery.Conservation

/-!
# What failing sends lose

A send that fails does not only cost its own datagram. What was read ahead is neither delivered nor
in the queue any more, and no error tells of it. A whole connection is described by its breaks, one
for each send that failed: the datagrams that it took out of the queue are those that were
delivered, those whose send failed, and the next two behind each of these.
-/

namespace Gelf

namespace Delivery

/-- A send that failed, with the datagrams that were delivered since the break before. -/
structure Break where
  sent : List Datagram
  failed : Datagram
  /-- What was read ahead when the send failed. -/
  lost : List Datagram

namespace Break

def taken (b : Break) : List Datagram := b.sent ++ b.failed :: b.lost

def offered (b : Break) : List Datagram := b.sent ++ [b.failed]

end Break

/-- What a connection did between two moments of the queue and the wire. `last` was delivered after
the last break. -/
structure Accounts (waiting : List Datagram) (wire : Wire) (breaks : List Break)
    (last : List Datagram) (waiting' : List Datagram) (wire' : Wire) : Prop where
  taken : waiting = breaks.flatMap Break.taken ++ (last ++ waiting')
  offered : wire'.map Attempt.datagram =
    wire.map Attempt.datagram ++ (breaks.flatMap Break.offered ++ last)
  delivered : wire'.delivered = wire.delivered ++ (breaks.flatMap Break.sent ++ last)
  /-- The lost are the first of those that waited behind the failed one. -/
  lost : ∀ before b behind, breaks = before ++ b :: behind →
    b.lost = (b.lost ++ (behind.flatMap Break.taken ++ (last ++ waiting'))).take readAhead

namespace Accounts

variable {waiting waiting' last : List Datagram} {wire wire' : Wire} {breaks : List Break}

theorem refl (waiting : List Datagram) (wire : Wire) :
    Accounts waiting wire [] [] waiting wire where
  taken := rfl
  offered := (List.append_nil _).symm
  delivered := (List.append_nil _).symm
  lost before b behind h := by simp at h

theorem of_sent (hoffered : wire'.map Attempt.datagram = wire.map Attempt.datagram ++ last)
    (hdelivered : wire'.delivered = wire.delivered ++ last) :
    Accounts (last ++ waiting') wire [] last waiting' wire' where
  taken := rfl
  offered := hoffered
  delivered := hdelivered
  lost before b behind h := by simp at h

/-- A break comes before what the connection does with the datagrams that are left. -/
theorem cons {b : Break} {behind : List Datagram} {wire₁ : Wire}
    (hoffered : wire₁.map Attempt.datagram = wire.map Attempt.datagram ++ b.offered)
    (hdelivered : wire₁.delivered = wire.delivered ++ b.sent)
    (hlost : b.lost = behind.take readAhead)
    (h : Accounts (behind.drop readAhead) wire₁ breaks last waiting' wire') :
    Accounts (b.sent ++ b.failed :: behind) wire (b :: breaks) last waiting' wire' where
  taken := by
    rw [List.flatMap_cons, Break.taken, List.append_assoc, List.append_assoc, List.cons_append,
      ← h.taken, hlost, List.take_append_drop]
  offered := by
    rw [h.offered, hoffered, List.flatMap_cons, List.append_assoc, List.append_assoc]
  delivered := by
    rw [h.delivered, hdelivered, List.flatMap_cons, List.append_assoc, List.append_assoc]
  lost before b' behind' heq := by
    cases before with
    | nil =>
      obtain ⟨rfl, rfl⟩ := List.cons.inj heq
      rw [← h.taken, hlost, List.take_append_drop]
    | cons b₀ before =>
      exact h.lost before b' behind' (List.cons.inj heq).2

end Accounts

/-! ### One address -/

/-- An address sends up to the end of the queue, or up to a datagram whose send fails. -/
theorem exists_forward_eq (net : Network) (target : Endpoint) (ds : List Datagram) (wire : Wire) :
    ∃ (sent rest : List Datagram) (wire₁ : Wire), ds = sent ++ rest ∧
      wire₁.map Attempt.datagram = wire.map Attempt.datagram ++ sent ∧
      wire₁.delivered = wire.delivered ++ sent ∧
      forward net target ds wire = forward net target rest wire₁ ∧
      ∀ d ∈ rest.head?, ¬ (wire₁.offer net target d).isDelivered = true := by
  induction ds generalizing wire with
  | nil => exact ⟨[], [], wire, rfl, (List.append_nil _).symm, (List.append_nil _).symm, rfl, nofun⟩
  | cons d ds ih =>
    by_cases hd : (wire.offer net target d).isDelivered = true
    · obtain ⟨sent, rest, wire₁, rfl, hoffered, hdelivered, heq, hrest⟩ :=
        ih (wire ++ [wire.offer net target d])
      refine ⟨d :: sent, rest, wire₁, rfl, ?_, ?_, ?_, hrest⟩
      · rw [hoffered, List.map_append, List.append_assoc]
        rfl
      · rw [hdelivered, Wire.delivered_append, Wire.delivered_singleton_of_isDelivered hd,
          List.append_assoc]
        rfl
      · rw [forward_cons_of_isDelivered hd, heq]
    · refine ⟨[], d :: ds, wire, rfl, (List.append_nil _).symm, (List.append_nil _).symm, rfl, ?_⟩
      intro d' hd'
      cases hd'
      exact hd

/-! ### All addresses of a target -/

theorem exists_accounts_drainTo (net : Network) (port : UInt16) (hasSender : Bool)
    (addresses : List Address) (errors : List (Address × IoError)) (waiting : List Datagram)
    (wire : Wire) :
    ∃ breaks last, Accounts waiting wire breaks last
      (drainTo net port hasSender addresses errors waiting wire).waiting
      (drainTo net port hasSender addresses errors waiting wire).wire := by
  induction addresses generalizing errors waiting wire with
  | nil => exact ⟨[], [], .refl waiting wire⟩
  | cons address rest ih =>
    rw [drainTo_cons]
    split
    · exact ih _ waiting wire
    · obtain ⟨sent, behind, wire₁, rfl, hoffered, hdelivered, heq, hhead⟩ :=
        exists_forward_eq net ⟨address, port⟩ waiting wire
      rw [heq]
      cases behind with
      | nil => exact ⟨[], sent, .of_sent hoffered hdelivered⟩
      | cons d behind =>
        -- The address breaks at the datagram, and the next one goes on behind what was read ahead.
        obtain ⟨e, hbroken⟩ := forward_cons_of_not_isDelivered behind (hhead d rfl)
        let broken : Break := ⟨sent, d, behind.take readAhead⟩
        let wire₂ := wire₁ ++ [wire₁.offer net ⟨address, port⟩ d]
        have hoffered' : wire₂.map Attempt.datagram =
            wire.map Attempt.datagram ++ broken.offered := by
          rw [List.map_append, hoffered, List.append_assoc]
          rfl
        have hdelivered' : wire₂.delivered = wire.delivered ++ broken.sent := by
          rw [Wire.delivered_append, Wire.delivered_singleton_of_not_isDelivered (hhead d rfl),
            List.append_nil, hdelivered]
        obtain ⟨breaks, last, hrest⟩ :=
          ih (errors ++ [(address, e)]) (behind.drop readAhead) wire₂
        rw [hbroken]
        exact ⟨broken :: breaks, last, hrest.cons hoffered' hdelivered' rfl⟩

/-- **What a connection loses.** Every datagram that a connection took out of the queue was
delivered, or its send failed, or it was one of the first two that waited behind one whose send
failed. What is left waits in order. -/
theorem connect_loses_what_was_read_ahead (net : Network) (target : Target) (hasSender : Bool)
    (waiting : List Datagram) (wire : Wire) :
    ∃ breaks last, Accounts waiting wire breaks last
      (connect net target hasSender waiting wire).waiting
      (connect net target hasSender waiting wire).wire :=
  exists_accounts_drainTo _ _ _ _ _ _ _

end Delivery

namespace Shipper

open Delivery (Network Attempt)

/-- Two datagrams wait, and the send of the first one fails. The second one was never offered to the
network, and it is gone as well. -/
theorem failed_send_takes_the_next_along :
    let failing : Network :=
      { lookup _ := .ok []
        socketError _ := none
        outcome _ _ _ :=
          .failed { kind := .invalidInput, text := "Invalid argument (os error 22)" } }
    let builder : Builder := { sourceHost := some "relay" }
    let steps : List (Network × Step) := [(failing, .send [1] 100), (failing, .send [2] 100)]
    ∃ shipper, builder.queued (.name "") ⟨"127.0.0.1", 0⟩ 2 .own = .ok shipper ∧
      let before := (shipper.run MessageId.ofNat steps).2
      let after := (before.connect failing).2
      before.waiting = [[1], [2]] ∧
      after.wire.map Attempt.datagram = [[1]] ∧
      after.delivered = [] ∧
      after.waiting ≠ [[2]] := by
  intro failing builder steps
  exact ⟨_, rfl, by decide +kernel, by decide +kernel, by decide +kernel, by decide +kernel⟩

end Shipper

end Gelf
