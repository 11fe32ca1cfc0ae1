import Gelf.Proofs.Delivery.ReadAhead

/-!
# Draining the queue

A connection takes datagrams off the front of the queue and never puts any back. `Drains` says so of
two moments of a queue and its wire: what was sent in between, followed by what still waits, is a
subsequence of what waited, and all of it when every send was written in full.
-/

namespace Gelf.Delivery

/-- A network without names, on which every send is written in full. -/
def Network.lossless : Network where
  lookup _ := .ok []
  socketError _ := none
  outcome _ _ d := .written d.length

theorem Outcome.error?_eq_none_iff {outcome : Outcome} {size : Nat} :
    outcome.error? size = none ↔ outcome = .written size := by
  cases outcome with
  | written n =>
    rw [Outcome.error?, Outcome.written.injEq]
    split <;> simp_all
  | failed e => simp [Outcome.error?]

theorem Attempt.isDelivered_eq_true_iff {a : Attempt} :
    a.isDelivered = true ↔ a.outcome.error? a.datagram.length = none := by
  rw [Outcome.error?_eq_none_iff, Attempt.isDelivered, decide_eq_true_iff]

namespace Wire

theorem delivered_singleton_of_isDelivered {a : Attempt} (h : a.isDelivered = true) :
    delivered [a] = [a.datagram] := by
  rw [delivered, List.filter_cons_of_pos h]
  rfl

theorem delivered_singleton_of_not_isDelivered {a : Attempt} (h : ¬ a.isDelivered = true) :
    delivered [a] = [] := by
  rw [delivered, List.filter_cons_of_neg h]
  rfl

end Wire

/-- What a connection may do to the datagrams that wait and to the wire. -/
def Drains (waiting : List Datagram) (wire : Wire) (waiting' : List Datagram) (wire' : Wire) :
    Prop :=
  ∃ sent : Wire, wire' = wire ++ sent ∧ (sent.delivered ++ waiting').Sublist waiting ∧
    ((∀ a ∈ sent, a.isDelivered = true) → sent.delivered ++ waiting' = waiting)

namespace Drains

variable {waiting waiting' waiting'' : List Datagram} {wire wire' wire'' : Wire}

theorem refl (waiting : List Datagram) (wire : Wire) : Drains waiting wire waiting wire :=
  ⟨[], (List.append_nil wire).symm, List.Sublist.refl _, fun _ => rfl⟩

theorem trans (h : Drains waiting wire waiting' wire')
    (h' : Drains waiting' wire' waiting'' wire'') : Drains waiting wire waiting'' wire'' := by
  obtain ⟨sent, rfl, hsub, hall⟩ := h
  obtain ⟨sent', rfl, hsub', hall'⟩ := h'
  refine ⟨sent ++ sent', List.append_assoc wire sent sent', ?_, ?_⟩
  · rw [Wire.delivered_append, List.append_assoc]
    exact (hsub'.append_left _).trans hsub
  · intro hdelivered
    have hfirst : ∀ a ∈ sent, a.isDelivered = true := by
      intro a ha
      exact hdelivered a (List.mem_append_left _ ha)
    have hsecond : ∀ a ∈ sent', a.isDelivered = true := by
      intro a ha
      exact hdelivered a (List.mem_append_right _ ha)
    rw [Wire.delivered_append, List.append_assoc, hall' hsecond, hall hfirst]

theorem length_le (h : Drains waiting wire waiting' wire') : waiting'.length ≤ waiting.length := by
  obtain ⟨sent, -, hsub, -⟩ := h
  exact ((List.sublist_append_right _ _).trans hsub).length_le

end Drains

/-! ### One address -/

variable {net : Network} {target : Endpoint}

theorem forward_cons_of_isDelivered {d : Datagram} {ds : List Datagram} {wire : Wire}
    (h : (wire.offer net target d).isDelivered = true) :
    forward net target (d :: ds) wire =
      forward net target ds (wire ++ [wire.offer net target d]) := by
  have hnone : (wire.offer net target d).outcome.error? d.length = none :=
    Attempt.isDelivered_eq_true_iff.1 h
  exact forward_cons_of_sent ds hnone

/-- A datagram that is not written in full ends the forwarding, and some behind it are gone. -/
theorem forward_cons_of_not_isDelivered {d : Datagram} (ds : List Datagram) {wire : Wire}
    (h : ¬ (wire.offer net target d).isDelivered = true) :
    ∃ e, forward net target (d :: ds) wire =
      { waiting := ds.drop readAhead, wire := wire ++ [wire.offer net target d],
        error := some e } := by
  cases herror : (wire.offer net target d).outcome.error? d.length with
  | none => exact absurd (Attempt.isDelivered_eq_true_iff.2 herror) h
  | some e => exact ⟨e, forward_cons_of_error ds herror⟩

theorem forward_drains (net : Network) (target : Endpoint) (ds : List Datagram) (wire : Wire) :
    Drains ds wire (forward net target ds wire).waiting (forward net target ds wire).wire := by
  induction ds generalizing wire with
  | nil => exact .refl [] wire
  | cons d ds ih =>
    by_cases h : (wire.offer net target d).isDelivered = true
    · have hone : Drains (d :: ds) wire ds (wire ++ [wire.offer net target d]) := by
        have hsent := Wire.delivered_singleton_of_isDelivered h
        refine ⟨[wire.offer net target d], rfl, ?_, ?_⟩
        · rw [hsent]
          exact List.Sublist.refl _
        · intro _
          rw [hsent]
          rfl
      rw [forward_cons_of_isDelivered h]
      exact hone.trans (ih _)
    · obtain ⟨e, heq⟩ := forward_cons_of_not_isDelivered ds h
      rw [heq]
      refine ⟨[wire.offer net target d], rfl, ?_, ?_⟩
      · rw [Wire.delivered_singleton_of_not_isDelivered h]
        exact (List.drop_sublist _ _).trans (List.sublist_cons_self _ _)
      · intro hall
        exact absurd (hall _ (List.mem_singleton.2 rfl)) h

theorem forward_of_all_delivered {ds : List Datagram} {wire : Wire}
    (h : ∀ a ∈ (forward net target ds wire).wire.drop wire.length, a.isDelivered = true) :
    (forward net target ds wire).error = none ∧ (forward net target ds wire).waiting = [] := by
  induction ds generalizing wire with
  | nil => exact ⟨rfl, rfl⟩
  | cons d ds ih =>
    by_cases hd : (wire.offer net target d).isDelivered = true
    · rw [forward_cons_of_isDelivered hd] at h ⊢
      apply ih
      intro a ha
      apply h a
      rw [List.length_append] at ha
      exact (List.drop_sublist_drop_left _ (Nat.le_add_right _ _)).subset ha
    · obtain ⟨e, heq⟩ := forward_cons_of_not_isDelivered ds hd
      rw [heq] at h
      exact absurd (h _ (by simp)) hd

/-! ### All addresses of a target -/

theorem drainTo_cons (net : Network) (port : UInt16) (hasSender : Bool) (address : Address)
    (rest : List Address) (errors : List (Address × IoError)) (waiting : List Datagram)
    (wire : Wire) :
    drainTo net port hasSender (address :: rest) errors waiting wire =
      match net.socketError address with
      | some e => drainTo net port hasSender rest (errors ++ [(address, e)]) waiting wire
      | none =>
        let f := forward net ⟨address, port⟩ waiting wire
        match f.error with
        | some e => drainTo net port hasSender rest (errors ++ [(address, e)]) f.waiting f.wire
        | none =>
          { ending := if hasSender then .idle else .returned errors
            waiting := f.waiting
            wire := f.wire } := by
  rw [← Relay.run_eq_forward]
  rfl

theorem drainTo_drains (net : Network) (port : UInt16) (hasSender : Bool) (addresses : List Address)
    (errors : List (Address × IoError)) (waiting : List Datagram) (wire : Wire) :
    Drains waiting wire (drainTo net port hasSender addresses errors waiting wire).waiting
      (drainTo net port hasSender addresses errors waiting wire).wire := by
  induction addresses generalizing errors waiting wire with
  | nil => exact .refl waiting wire
  | cons address rest ih =>
    rw [drainTo_cons]
    split
    · exact ih _ waiting wire
    · have hfirst := forward_drains net ⟨address, port⟩ waiting wire
      dsimp only
      split
      · exact hfirst.trans (ih _ _ _)
      · exact hfirst

theorem connect_drains (net : Network) (target : Target) (hasSender : Bool)
    (waiting : List Datagram) (wire : Wire) :
    Drains waiting wire (connect net target hasSender waiting wire).waiting
      (connect net target hasSender waiting wire).wire :=
  drainTo_drains _ _ _ _ _ _ _

/-- Addresses for which no socket can be set up are passed over and their errors noted. -/
theorem drainTo_append_of_socketError {port : UInt16} {hasSender : Bool}
    {failing : List (Address × IoError)} (hfailing : ∀ p ∈ failing, net.socketError p.1 = some p.2)
    (rest : List Address) (errors : List (Address × IoError)) (waiting : List Datagram)
    (wire : Wire) :
    drainTo net port hasSender (failing.map Prod.fst ++ rest) errors waiting wire =
      drainTo net port hasSender rest (errors ++ failing) waiting wire := by
  induction failing generalizing errors with
  | nil => simp
  | cons p failing ih =>
    have hp := hfailing p List.mem_cons_self
    rw [List.map_cons, List.cons_append, drainTo_cons, hp]
    dsimp only
    rw [ih (fun q hq => hfailing q (List.mem_cons_of_mem p hq)), List.append_assoc]
    rfl

/-- A connection to addresses none of which lets a socket be set up sends nothing. -/
theorem connect_of_no_socket {target : Target} {hasSender : Bool}
    {failing : List (Address × IoError)}
    (haddresses : target.addresses net = .ok (failing.map Prod.fst))
    (hfailing : ∀ p ∈ failing, net.socketError p.1 = some p.2) (waiting : List Datagram)
    (wire : Wire) :
    connect net target hasSender waiting wire =
      { ending := .returned failing, waiting, wire } := by
  have hpassed : drainTo net target.port hasSender (failing.map Prod.fst ++ []) [] waiting wire =
      drainTo net target.port hasSender [] ([] ++ failing) waiting wire :=
    drainTo_append_of_socketError hfailing [] [] waiting wire
  rw [List.append_nil, List.nil_append] at hpassed
  simp only [connect, haddresses, hpassed]
  rfl

/-- **A connection at the end.** When no sender is left, the first address with a socket empties the
queue unless a send fails, and the connection returns with the errors of the addresses before it. -/
theorem connect_of_all_delivered {target : Target} {failing : List (Address × IoError)}
    {address : Address} {rest : List Address} {waiting : List Datagram} {wire : Wire}
    (haddresses : target.addresses net = .ok (failing.map Prod.fst ++ address :: rest))
    (hfailing : ∀ p ∈ failing, net.socketError p.1 = some p.2)
    (hsocket : net.socketError address = none)
    (hall : ∀ a ∈ (connect net target false waiting wire).wire.drop wire.length,
      a.isDelivered = true) :
    (connect net target false waiting wire).ending = .returned failing ∧
      (connect net target false waiting wire).waiting = [] := by
  have hconnect : connect net target false waiting wire =
      drainTo net target.port false (address :: rest) failing waiting wire := by
    simp only [connect, haddresses]
    rw [drainTo_append_of_socketError hfailing, List.nil_append]
  rw [hconnect, drainTo_cons, hsocket] at hall ⊢
  dsimp only at hall ⊢
  cases herror : (forward net ⟨address, target.port⟩ waiting wire).error with
  | some e =>
    rw [herror] at hall
    dsimp only at hall
    -- What later addresses send only makes the wire longer, so the failed send is still on it.
    obtain ⟨sent, hwire, -⟩ := drainTo_drains net target.port false rest
      (failing ++ [(address, e)]) (forward net ⟨address, target.port⟩ waiting wire).waiting
      (forward net ⟨address, target.port⟩ waiting wire).wire
    rw [hwire] at hall
    have hnone : (forward net ⟨address, target.port⟩ waiting wire).error = none :=
      (forward_of_all_delivered fun a ha => hall a
        (((List.sublist_append_left _ sent).drop wire.length).subset ha)).1
    rw [herror] at hnone
    cases hnone
  | none =>
    rw [herror] at hall
    exact ⟨rfl, (forward_of_all_delivered hall).2⟩

end Gelf.Delivery
