import Gelf.Delivery.Connection

/-!
# What a connection has read ahead

The three places of a relay fill up before anything is sent, and from then on each send is followed
by one datagram taken out of the queue. So while a datagram is sent, the two behind it are out of
the queue. `forward` says so of a list, without the places.
-/

namespace Gelf.Delivery

/-- How many datagrams are out of the queue behind the one that is being sent. -/
def readAhead : Nat := 2

/-- Sends what waits until the queue is empty or a send fails. What was read ahead is then gone. -/
def forward (net : Network) (target : Endpoint) : List Datagram → Wire → Forwarding
  | [], wire => { waiting := [], wire, error := none }
  | d :: ds, wire =>
    let attempt := wire.offer net target d
    match attempt.outcome.error? d.length with
    | none => forward net target ds (wire ++ [attempt])
    | some e => { waiting := ds.drop readAhead, wire := wire ++ [attempt], error := some e }

variable {net : Network} {target : Endpoint} {d : Datagram} {wire : Wire}

theorem forward_cons_of_sent (ds : List Datagram)
    (h : (wire.offer net target d).outcome.error? d.length = none) :
    forward net target (d :: ds) wire =
      forward net target ds (wire ++ [wire.offer net target d]) := by
  simp only [forward, h]

theorem forward_cons_of_error (ds : List Datagram) {e : IoError}
    (h : (wire.offer net target d).outcome.error? d.length = some e) :
    forward net target (d :: ds) wire =
      { waiting := ds.drop readAhead, wire := wire ++ [wire.offer net target d],
        error := some e } := by
  simp only [forward, h]

namespace Relay

theorem flush_of_sent (held slot : Option Datagram)
    (h : (wire.offer net target d).outcome.error? d.length = none) :
    flush net target { held, slot, buffer := some d, wire } =
      .ok { held, slot, wire := wire ++ [wire.offer net target d] } := by
  simp only [flush, h]

theorem flush_of_error (held slot : Option Datagram) {error : IoError}
    (h : (wire.offer net target d).outcome.error? d.length = some error) :
    flush net target { held, slot, buffer := some d, wire } =
      .error { error, wire := wire ++ [wire.offer net target d] } := by
  simp only [flush, h]

/-! ### When the queue is empty -/

theorem atEnd_flush (d : Datagram) (wire : Wire) :
    Forwarding.atEnd (flush net target { buffer := some d, wire }) =
      forward net target [d] wire := by
  cases h : (wire.offer net target d).outcome.error? d.length with
  | none =>
    rw [flush_of_sent _ _ h, forward_cons_of_sent _ h]
    rfl
  | some e =>
    rw [flush_of_error _ _ h, forward_cons_of_error _ h]
    rfl

theorem atEnd_settle (a b : Datagram) (wire : Wire) :
    Forwarding.atEnd (settle net target { slot := some b, buffer := some a, wire }) =
      forward net target [a, b] wire := by
  cases h : (wire.offer net target a).outcome.error? a.length with
  | none =>
    rw [forward_cons_of_sent _ h, ← atEnd_flush, settle, advance, flush_of_sent _ _ h]
    rfl
  | some e =>
    rw [forward_cons_of_error _ h, settle, advance, flush_of_error _ _ h]
    rfl

/-! ### The whole way -/

/-- When the buffer cannot be sent, only what is still in the queue is left. -/
theorem run_of_error (a b c : Datagram) (ds : List Datagram) {e : IoError}
    (h : (wire.offer net target a).outcome.error? a.length = some e) :
    run net target { held := some c, slot := some b, buffer := some a, wire } ds =
      forward net target (a :: b :: c :: ds) wire := by
  have hload : load net target { held := some c, slot := some b, buffer := some a, wire } =
      .error { error := e, wire := wire ++ [wire.offer net target a] } := by
    rw [load, advance, flush_of_error _ _ h]
    rfl
  rw [forward_cons_of_error _ h]
  cases ds <;> simp only [run, hload] <;> rfl

/-- A relay with all places taken sends the buffer, and then one datagram moves up everywhere. -/
theorem run_of_full (a b c : Datagram) (ds : List Datagram) (wire : Wire) :
    run net target { held := some c, slot := some b, buffer := some a, wire } ds =
      forward net target (a :: b :: c :: ds) wire := by
  induction ds generalizing a b c wire with
  | nil =>
    cases h : (wire.offer net target a).outcome.error? a.length with
    | none =>
      rw [forward_cons_of_sent _ h, ← atEnd_settle, run, load, advance, flush_of_sent _ _ h]
      rfl
    | some e => exact run_of_error a b c [] h
  | cons d ds ih =>
    cases h : (wire.offer net target a).outcome.error? a.length with
    | none =>
      rw [forward_cons_of_sent _ h, ← ih, run, load, advance, flush_of_sent _ _ h]
      rfl
    | some e => exact run_of_error a b c (d :: ds) h

/-- The places of a relay do no more than read ahead. -/
theorem run_eq_forward (ds : List Datagram) (wire : Wire) :
    run net target { wire } ds = forward net target ds wire := by
  match ds with
  | [] => rfl
  | [a] => exact atEnd_flush a wire
  | [a, b] => exact atEnd_settle a b wire
  | a :: b :: c :: ds => exact run_of_full a b c ds wire

end Relay

end Gelf.Delivery
