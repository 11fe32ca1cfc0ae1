import Gelf.Proofs.Delivery.Conservation

/-!
# When a connection returns without errors

To a caller that connects again and again, a list of errors that is empty looks like the end. There
are two ways to such a list, and only one of them is the end: no sender is left, and the queue was
emptied. On the other one the target has no address. Then nothing could fail, and nothing was done.
-/

namespace Gelf

namespace Delivery

/-- There is no address to try, be it that the lookup failed or that it found none. -/
def Target.IsUnresolved (net : Network) (target : Target) : Prop :=
  ∀ addresses, target.addresses net = .ok addresses → addresses = []

variable {net : Network} {waiting : List Datagram} {wire : Wire}

/-! ### One address -/

/-- When an address meets no error, each of its sends was written in full. -/
theorem exists_sent_of_forward {target : Endpoint}
    (h : (forward net target waiting wire).error = none) :
    ∃ sent : Wire, (forward net target waiting wire).wire = wire ++ sent ∧
      ∀ a ∈ sent, a.isDelivered = true := by
  induction waiting generalizing wire with
  | nil => exact ⟨[], (List.append_nil wire).symm, nofun⟩
  | cons d waiting ih =>
    by_cases hd : (wire.offer net target d).isDelivered = true
    · rw [forward_cons_of_isDelivered hd] at h ⊢
      obtain ⟨sent, hwire, hsent⟩ := ih h
      refine ⟨wire.offer net target d :: sent, ?_, List.forall_mem_cons.2 ⟨hd, hsent⟩⟩
      rw [hwire, List.append_assoc]
      rfl
    · obtain ⟨e, heq⟩ := forward_cons_of_not_isDelivered waiting hd
      rw [heq] at h
      cases h

/-! ### All addresses of a target -/

/-- Errors are only ever added. -/
theorem drainTo_ending_ne_of_errors {port : UInt16} {hasSender : Bool} (addresses : List Address)
    {errors : List (Address × IoError)} (herrors : errors ≠ []) :
    (drainTo net port hasSender addresses errors waiting wire).ending ≠ .returned [] := by
  have hmore (e : Address × IoError) : errors ++ [e] ≠ [] :=
    List.append_ne_nil_of_left_ne_nil herrors _
  induction addresses generalizing errors waiting wire with
  | nil =>
    intro h
    exact herrors (Ending.returned.inj h)
  | cons address rest ih =>
    rw [drainTo_cons]
    split
    · exact ih (hmore _) fun e => List.append_ne_nil_of_left_ne_nil (hmore _) _
    · dsimp only
      split
      · exact ih (hmore _) fun e => List.append_ne_nil_of_left_ne_nil (hmore _) _
      · cases hasSender with
        | true => exact nofun
        | false =>
          intro h
          exact herrors (Ending.returned.inj h)

theorem drainTo_cons_ending_eq_iff {port : UInt16} {hasSender : Bool} {address : Address}
    {rest : List Address} :
    (drainTo net port hasSender (address :: rest) [] waiting wire).ending = .returned [] ↔
      hasSender = false ∧ net.socketError address = none ∧
        (forward net ⟨address, port⟩ waiting wire).error = none := by
  rw [drainTo_cons]
  cases hsocket : net.socketError address with
  | some e => exact iff_of_false (drainTo_ending_ne_of_errors rest (List.cons_ne_nil _ _)) nofun
  | none =>
    dsimp only
    cases hforward : (forward net ⟨address, port⟩ waiting wire).error with
    | some e => exact iff_of_false (drainTo_ending_ne_of_errors rest (List.cons_ne_nil _ _)) nofun
    | none => cases hasSender <;> simp

section Target

variable {target : Target} {hasSender : Bool} {addresses : List Address}

theorem connect_eq_drainTo (h : target.addresses net = .ok addresses) :
    connect net target hasSender waiting wire =
      drainTo net target.port hasSender addresses [] waiting wire := by
  simp only [connect, h]

theorem connect_of_isUnresolved (h : target.IsUnresolved net) :
    connect net target hasSender waiting wire = { ending := .returned [], waiting, wire } := by
  cases haddresses : target.addresses net with
  | error e =>
    simp only [connect, haddresses]
    rfl
  | ok addresses =>
    rw [connect_eq_drainTo haddresses, h addresses haddresses]
    rfl

theorem exists_address_of_not_isUnresolved (h : ¬ target.IsUnresolved net) :
    ∃ address rest, target.addresses net = .ok (address :: rest) := by
  simp only [Target.IsUnresolved, Classical.not_forall] at h
  obtain ⟨addresses, haddresses, hne⟩ := h
  obtain ⟨address, rest, rfl⟩ := List.exists_cons_of_ne_nil hne
  exact ⟨address, rest, haddresses⟩

/-- A connection at the end: no sender is left, and the first address took all that it was sent. -/
structure Finishes (net : Network) (target : Target) (hasSender : Bool) (waiting : List Datagram)
    (wire : Wire) : Prop where
  noSender : hasSender = false
  hasSocket : ∃ address rest, target.addresses net = .ok (address :: rest) ∧
    net.socketError address = none
  allDelivered : ∀ a ∈ (connect net target hasSender waiting wire).wire.drop wire.length,
    a.isDelivered = true

theorem Finishes.ending_and_waiting (h : Finishes net target hasSender waiting wire) :
    (connect net target hasSender waiting wire).ending = .returned [] ∧
      (connect net target hasSender waiting wire).waiting = [] := by
  obtain ⟨rfl, ⟨address, rest, haddresses, hsocket⟩, hall⟩ := h
  exact @connect_of_all_delivered net target [] address rest waiting wire haddresses nofun hsocket
    hall

theorem Finishes.delivered (h : Finishes net target hasSender waiting wire) :
    (connect net target hasSender waiting wire).wire.delivered = wire.delivered ++ waiting := by
  have hempty := h.ending_and_waiting.2
  have hall := h.allDelivered
  obtain ⟨sent, hwire, -, hsent⟩ := connect_drains net target hasSender waiting wire
  rw [hwire, List.drop_left] at hall
  have hdelivered := hsent hall
  rw [hempty, List.append_nil] at hdelivered
  rw [hwire, Wire.delivered_append, hdelivered]

theorem connect_ending_eq_iff :
    (connect net target hasSender waiting wire).ending = .returned [] ↔
      target.IsUnresolved net ∨ Finishes net target hasSender waiting wire := by
  constructor
  · intro h
    by_cases hunresolved : target.IsUnresolved net
    · exact .inl hunresolved
    · obtain ⟨address, rest, haddresses⟩ := exists_address_of_not_isUnresolved hunresolved
      rw [connect_eq_drainTo haddresses] at h
      obtain ⟨hsender, hsocket, herror⟩ := drainTo_cons_ending_eq_iff.1 h
      obtain ⟨sent, hwire, hsent⟩ := exists_sent_of_forward herror
      refine .inr ⟨hsender, ⟨address, rest, haddresses, hsocket⟩, ?_⟩
      rw [connect_eq_drainTo haddresses, drainTo_cons, hsocket]
      dsimp only
      rw [herror, hwire, List.drop_left]
      exact hsent
  · rintro (hunresolved | hfinishes)
    · rw [connect_of_isUnresolved hunresolved]
    · exact hfinishes.ending_and_waiting.1

end Target

end Delivery

namespace Shipper

open Delivery (Network Queue)

variable {net : Network} {shipper : Shipper}

/-- The connection of the shipper is at the end of its work. -/
def Finishes (net : Network) (shipper : Shipper) : Prop :=
  Delivery.Finishes net shipper.target shipper.isLive shipper.waiting shipper.wire

theorem connect_of_connectionTarget?_eq_none (h : shipper.connectionTarget? = none) :
    shipper.connect net = (none, shipper) := by
  cases hroute : shipper.route with
  | direct => simp only [connect, hroute]
  | queued queue =>
    have hclosed : ¬ queue.isOpen = true := by
      intro hopen
      simp [connectionTarget?, hroute, hopen] at h
    simp only [connect, hroute, if_neg hclosed]

theorem exists_queue_of_connectionTarget? (h : shipper.connectionTarget? ≠ none) :
    ∃ queue, shipper.route = .queued queue ∧ queue.isOpen = true := by
  rw [connectionTarget?] at h
  split at h
  · exact absurd rfl h
  · split at h
    · exact ⟨_, by assumption, by assumption⟩
    · exact absurd rfl h

theorem connect_of_isUnresolved (h : shipper.target.IsUnresolved net) :
    (shipper.connect net).2 = shipper := by
  by_cases htarget : shipper.connectionTarget? = none
  · rw [connect_of_connectionTarget?_eq_none htarget]
  · obtain ⟨queue, hroute, hopen⟩ := exists_queue_of_connectionTarget? htarget
    rw [connect_eq_self hroute hopen (Delivery.connect_of_isUnresolved h)]

/-- **A clean return.** A connection returns without errors exactly if its target has no address, or
if no sender is left and the first address took all that waited. In the first case the shipper is as
it was, even if there are senders and datagrams wait. In the second one the queue was delivered. -/
theorem connect_returns_without_errors_iff (net : Network) (shipper : Shipper) :
    ((shipper.connect net).1 = some (.returned []) ↔
      shipper.connectionTarget? ≠ none ∧
        (shipper.target.IsUnresolved net ∨ shipper.Finishes net)) ∧
    (shipper.target.IsUnresolved net → (shipper.connect net).2 = shipper) ∧
    (shipper.connectionTarget? ≠ none → shipper.Finishes net →
      shipper.isLive = false ∧ (shipper.connect net).2.waiting = [] ∧
        (shipper.connect net).2.delivered = shipper.delivered ++ shipper.waiting) := by
  by_cases htarget : shipper.connectionTarget? = none
  · refine ⟨?_, connect_of_isUnresolved, fun h => absurd htarget h⟩
    rw [connect_of_connectionTarget?_eq_none htarget]
    exact iff_of_false nofun fun h => h.1 htarget
  · obtain ⟨queue, hroute, hopen⟩ := exists_queue_of_connectionTarget? htarget
    have hwaiting : shipper.waiting = queue.waiting := by
      simp only [waiting, hroute]
    refine ⟨?_, connect_of_isUnresolved, fun _ hfinishes => ?_⟩
    · rw [connect_of_queued hroute hopen, Option.some.injEq, Delivery.connect_ending_eq_iff,
        Finishes, hwaiting]
      exact (and_iff_right htarget).symm
    · have hempty := hfinishes.ending_and_waiting.2
      have hdelivered := hfinishes.delivered
      rw [hwaiting] at hempty hdelivered
      rw [connect_of_queued hroute hopen]
      refine ⟨hfinishes.noSender, hempty, ?_⟩
      rw [delivered, delivered, hwaiting]
      exact hdelivered

/-- A name that is not looked up has no address. The connection returns without errors, although a
datagram waits and more can be sent. -/
theorem unresolved_target_returns_at_once :
    let builder : Builder := { sourceHost := some "relay" }
    let steps : List (Network × Step) := [(.lossless, .send [120] 100)]
    ∃ shipper, builder.queued (.name "") ⟨"a\x00b", 12201⟩ 1 .own = .ok shipper ∧
      let final := (shipper.run MessageId.ofNat steps).2
      (final.connect .lossless).1 = some (.returned []) ∧
      (final.connect .lossless).2.isLive = true ∧
      (final.connect .lossless).2.waiting = [[120]] := by
  intro builder steps
  exact ⟨_, rfl, by decide +kernel, rfl, by decide +kernel⟩

end Shipper

end Gelf
