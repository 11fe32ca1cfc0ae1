import Gelf.Proofs.Chunk.Cutting
import Gelf.Proofs.Delivery.Sending

/-!
# The first failure

A direct route gives the datagrams of a message to the network in order, up to and including the
first one that is not written in full, and it succeeds exactly when there is none. No datagram of a
message is longer than one before it, so a limit on their size lets through all of a message or
nothing.
-/

namespace Gelf.Delivery

/-- What becomes of datagrams that are all given to the network, behind `sent` others. -/
def Network.attempts (net : Network) (target : Endpoint) (sent : Nat) (ds : List Datagram) : Wire :=
  (ds.zipIdx sent).map fun (datagram, i) =>
    { target, datagram, outcome := net.outcome i target datagram }

/-- Everything up to and including the first datagram that was not written in full. -/
def Wire.uptoFailure (wire : Wire) : Wire :=
  wire.takeWhile Attempt.isDelivered ++ (wire.dropWhile Attempt.isDelivered).take 1

/-- Datagrams for port 0 and those above a limit are refused, and all others are written in full. -/
structure Network.Limits (net : Network) (limit : Nat) : Prop where
  refuses : ∀ sent target d, target.port = 0 ∨ limit < d.length →
    ∃ e, net.outcome sent target d = .failed e
  writes : ∀ sent target d, ¬ (target.port = 0 ∨ limit < d.length) →
    net.outcome sent target d = .written d.length

namespace Wire

theorem uptoFailure_cons_of_isDelivered {a : Attempt} (wire : Wire) (h : a.isDelivered = true) :
    uptoFailure (a :: wire) = a :: uptoFailure wire := by
  rw [uptoFailure, List.takeWhile_cons_of_pos h, List.dropWhile_cons_of_pos h]
  rfl

theorem uptoFailure_cons_of_not_isDelivered {a : Attempt} (wire : Wire)
    (h : ¬ a.isDelivered = true) : uptoFailure (a :: wire) = [a] := by
  rw [uptoFailure, List.takeWhile_cons_of_neg h, List.dropWhile_cons_of_neg h]
  rfl

end Wire

section SendAll

variable {net : Network} {endpoint : Endpoint} {ds : List Datagram} {wire : Wire}

theorem attempts_cons (net : Network) (endpoint : Endpoint) (d : Datagram) (ds : List Datagram)
    (wire : Wire) : net.attempts endpoint wire.length (d :: ds) =
      wire.offer net endpoint d ::
        net.attempts endpoint (wire ++ [wire.offer net endpoint d]).length ds := by
  rw [List.length_append, List.length_singleton]
  rfl

theorem wire_sendAll (net : Network) (endpoint : Endpoint) (ds : List Datagram) (wire : Wire) :
    (sendAll net endpoint ds wire).2 =
      wire ++ (net.attempts endpoint wire.length ds).uptoFailure := by
  induction ds generalizing wire with
  | nil => exact (List.append_nil wire).symm
  | cons d ds ih =>
    rw [attempts_cons]
    by_cases hd : (wire.offer net endpoint d).isDelivered = true
    · rw [sendAll_cons_of_isDelivered ds hd, ih, Wire.uptoFailure_cons_of_isDelivered _ hd,
        List.append_assoc]
      rfl
    · obtain ⟨e, heq⟩ := sendAll_cons_of_not_isDelivered ds hd
      rw [heq, Wire.uptoFailure_cons_of_not_isDelivered _ hd]

theorem sendAll_eq_ok_iff {n : Nat} :
    (sendAll net endpoint ds wire).1 = .ok n ↔
      n = ds.length ∧ ∀ a ∈ net.attempts endpoint wire.length ds, a.isDelivered = true := by
  induction ds generalizing wire n with
  | nil =>
    rw [sendAll, Except.ok.injEq]
    exact ⟨fun h => ⟨h.symm, List.forall_mem_nil _⟩, fun h => h.1.symm⟩
  | cons d ds ih =>
    rw [attempts_cons, List.forall_mem_cons]
    by_cases hd : (wire.offer net endpoint d).isDelivered = true
    · rw [sendAll_cons_of_isDelivered ds hd]
      have hrest (k : Nat) := @ih (wire ++ [wire.offer net endpoint d]) k
      generalize (sendAll net endpoint ds (wire ++ [wire.offer net endpoint d])).1 = result at hrest
      cases result with
      | error e =>
        simp only [Except.map, reduceCtorEq, false_iff]
        intro h
        cases (hrest ds.length).2 ⟨rfl, h.2.2⟩
      | ok k =>
        obtain ⟨rfl, hall⟩ := (hrest k).1 rfl
        simp only [Except.map, Except.ok.injEq, List.length_cons]
        exact ⟨fun h => ⟨h.symm, hd, hall⟩, fun h => h.1.symm⟩
    · obtain ⟨e, heq⟩ := sendAll_cons_of_not_isDelivered ds hd
      simp only [heq, reduceCtorEq, false_iff]
      exact fun h => hd h.2.1

theorem Network.Limits.isDelivered_iff {limit : Nat} (h : net.Limits limit) (sent : Nat)
    (target : Endpoint) (datagram : Datagram) :
    Attempt.isDelivered { target, datagram, outcome := net.outcome sent target datagram } = true ↔
      target.port ≠ 0 ∧ datagram.length ≤ limit := by
  rw [← Nat.not_lt, ← not_or, Attempt.isDelivered, decide_eq_true_iff]
  constructor
  · intro hwritten hrefused
    obtain ⟨e, hfailed⟩ := h.refuses sent target datagram hrefused
    cases hwritten.symm.trans hfailed
  · exact h.writes sent target datagram

/-- When the first datagram is let through, so are all behind it, which are not longer. -/
theorem Network.Limits.delivered_sendAll {limit : Nat} (h : net.Limits limit)
    (hds : (ds.map List.length).Pairwise (· ≥ ·))
    (hfails : ∀ n, (sendAll net endpoint ds wire).1 ≠ .ok n) :
    (sendAll net endpoint ds wire).2.delivered = wire.delivered := by
  cases ds with
  | nil => exact absurd rfl (hfails 0)
  | cons d ds =>
    have hd : ¬ (wire.offer net endpoint d).isDelivered = true := by
      intro hd
      obtain ⟨hport, hlength⟩ := (h.isDelivered_iff _ _ _).1 hd
      refine hfails _ (sendAll_eq_ok_iff.2 ⟨rfl, ?_⟩)
      intro a ha
      obtain ⟨⟨d', i⟩, hmem, rfl⟩ := List.mem_map.1 ha
      refine (h.isDelivered_iff i endpoint d').2 ⟨hport, ?_⟩
      rcases List.mem_cons.1 (List.fst_mem_of_mem_zipIdx hmem) with rfl | hbehind
      · exact hlength
      · have hshorter := (List.pairwise_cons.1 hds).1 _ (List.mem_map_of_mem hbehind)
        exact hshorter.trans hlength
    obtain ⟨e, heq⟩ := sendAll_cons_of_not_isDelivered ds hd
    rw [heq, Wire.delivered_append, Wire.delivered_singleton_of_not_isDelivered hd,
      List.append_nil]

end SendAll

/-! ### Messages -/

section SendDirect

variable {net : Network} {target : Target} {chunks : ChunkCursor} {wire : Wire}

theorem sendDirect_of_not_reaches (chunks : ChunkCursor) (wire : Wire)
    (h : ¬ net.Reaches target) :
    ∃ e, sendDirect net target chunks wire = (.error (.transport e), wire) := by
  cases hresolve : target.resolve net with
  | error e =>
    refine ⟨e, ?_⟩
    simp only [sendDirect, hresolve]
  | ok endpoint =>
    cases hsocket : net.socketError endpoint.address with
    | none => exact absurd ⟨endpoint, hresolve, hsocket⟩ h
    | some e =>
      refine ⟨e, ?_⟩
      simp only [sendDirect, hresolve, hsocket]

theorem sendDirect_of_reaches {endpoint : Endpoint} (chunks : ChunkCursor) (wire : Wire)
    (hresolve : target.resolve net = .ok endpoint)
    (hsocket : net.socketError endpoint.address = none) :
    sendDirect net target chunks wire =
      ((sendAll net endpoint (chunks.collect.map Chunk.datagram) wire).1.mapError .transport,
        (sendAll net endpoint (chunks.collect.map Chunk.datagram) wire).2) := by
  simp only [sendDirect, hresolve, hsocket]

theorem mapError_eq_ok_iff {result : Except IoError Nat} {n : Nat} :
    result.mapError Fault.transport = .ok n ↔ result = .ok n := by
  cases result with
  | error e => exact iff_of_false nofun nofun
  | ok k => rw [Except.mapError, Except.ok.injEq, Except.ok.injEq]

theorem sendDirect_eq_ok_iff (hchunks : chunks.next ≤ chunks.count) {n : Nat} :
    (sendDirect net target chunks wire).1 = .ok n ↔
      n = chunks.remaining ∧ ∃ endpoint, target.resolve net = .ok endpoint ∧
        net.socketError endpoint.address = none ∧
        ∀ a ∈ net.attempts endpoint wire.length (chunks.collect.map Chunk.datagram),
          a.isDelivered = true := by
  have hlength : (chunks.collect.map Chunk.datagram).length = chunks.remaining := by
    rw [List.length_map, ChunkCursor.length_collect hchunks]
  by_cases hreaches : net.Reaches target
  · obtain ⟨endpoint, hresolve, hsocket⟩ := hreaches
    rw [sendDirect_of_reaches chunks wire hresolve hsocket, mapError_eq_ok_iff, sendAll_eq_ok_iff,
      hlength]
    refine and_congr_right fun _ => ⟨fun hall => ⟨endpoint, hresolve, hsocket, hall⟩, ?_⟩
    rintro ⟨endpoint', hresolve', -, hall⟩
    obtain rfl : endpoint' = endpoint := Except.ok.inj (hresolve'.symm.trans hresolve)
    exact hall
  · obtain ⟨e, heq⟩ := sendDirect_of_not_reaches chunks wire hreaches
    rw [heq]
    refine iff_of_false nofun ?_
    rintro ⟨-, endpoint, hresolve, hsocket, -⟩
    exact hreaches ⟨endpoint, hresolve, hsocket⟩

theorem exists_error_of_sendDirect (h : ∀ n, (sendDirect net target chunks wire).1 ≠ .ok n) :
    ∃ e, (sendDirect net target chunks wire).1 = .error (.transport e) := by
  by_cases hreaches : net.Reaches target
  · obtain ⟨endpoint, hresolve, hsocket⟩ := hreaches
    rw [sendDirect_of_reaches chunks wire hresolve hsocket] at h ⊢
    generalize (sendAll net endpoint (chunks.collect.map Chunk.datagram) wire).1 = result at h ⊢
    cases result with
    | error e => exact ⟨e, rfl⟩
    | ok n => exact absurd rfl (h n)
  · obtain ⟨e, heq⟩ := sendDirect_of_not_reaches chunks wire hreaches
    exact ⟨e, congrArg Prod.fst heq⟩

/-- Under a limit on datagrams a message that fails leaves nothing behind. -/
theorem Network.Limits.delivered_sendDirect {limit : Nat} (h : net.Limits limit)
    (hchunks : chunks.next ≤ chunks.count)
    (hfails : ∀ n, (sendDirect net target chunks wire).1 ≠ .ok n) :
    (sendDirect net target chunks wire).2.delivered = wire.delivered := by
  by_cases hreaches : net.Reaches target
  · obtain ⟨endpoint, hresolve, hsocket⟩ := hreaches
    rw [sendDirect_of_reaches chunks wire hresolve hsocket] at hfails ⊢
    apply h.delivered_sendAll
    · rw [List.map_map]
      exact ChunkCursor.descending_collect hchunks
    · intro n hn
      exact hfails n (mapError_eq_ok_iff.2 hn)
  · obtain ⟨e, heq⟩ := sendDirect_of_not_reaches chunks wire hreaches
    rw [heq]

/-- **Sending at once.** Of a cursor in any state, all chunks that are left are sent when the target
is reached and each of them, in order of the indices, is written in full. Otherwise the transport is
at fault, and the network was given nothing when the target was not reached, and else all up to and
including the first datagram that was not written in full. On a network that only refuses port 0 and
datagrams above some limit, a message that fails delivers nothing. -/
theorem direct_send_stops_at_first_failure (net : Network) (target : Target) (wire : Wire)
    {chunks : ChunkCursor} (hchunks : chunks.InUse) :
    let ds := (List.range' chunks.next.toNat chunks.remaining).map fun i =>
      (chunks.chunkAt (UInt8.ofNat i)).datagram
    let sent := sendDirect net target chunks wire
    (∀ n, sent.1 = .ok n ↔ n = chunks.remaining ∧ ∃ endpoint, target.resolve net = .ok endpoint ∧
      net.socketError endpoint.address = none ∧
      ∀ a ∈ net.attempts endpoint wire.length ds, a.isDelivered = true) ∧
    ((∀ n, sent.1 ≠ .ok n) → ∃ e, sent.1 = .error (.transport e)) ∧
    (¬ net.Reaches target → sent.2 = wire) ∧
    (∀ endpoint, target.resolve net = .ok endpoint → net.socketError endpoint.address = none →
      sent.2 = wire ++ (net.attempts endpoint wire.length ds).uptoFailure) ∧
    ∀ limit, net.Limits limit → (∀ n, sent.1 ≠ .ok n) → sent.2.delivered = wire.delivered := by
  intro ds sent
  have hnext := hchunks.next_le_count
  have hds : ds = chunks.collect.map Chunk.datagram := by
    rw [ChunkCursor.collect_eq_map_range' hnext, ← ChunkCursor.remaining_eq hnext, List.map_map]
    rfl
  rw [hds]
  refine ⟨fun n => sendDirect_eq_ok_iff hnext, exists_error_of_sendDirect, ?_, ?_,
    fun limit hlimit => hlimit.delivered_sendDirect hnext⟩
  · intro hreaches
    obtain ⟨e, heq⟩ := sendDirect_of_not_reaches chunks wire hreaches
    exact congrArg Prod.snd heq
  · intro endpoint hresolve hsocket
    have hsent := sendDirect_of_reaches chunks wire hresolve hsocket
    exact (congrArg Prod.snd hsent).trans (wire_sendAll _ _ _ _)

/-- Four datagrams, the first three of 20 octets. One network writes the third only in part, and
another lets no more than 19 octets through. -/
theorem short_write_ends_a_message :
    let payload := List.replicate 30 (0x61 : UInt8)
    let target : Target := ⟨"127.0.0.1", 12201⟩
    let partly : Network := { Network.lossless with
      outcome sent _ d := if sent = 2 then .written 5 else .written d.length }
    let narrow : Network := { Network.lossless with
      outcome _ endpoint d :=
        if endpoint.port = 0 ∨ 19 < d.length then .failed nulError else .written d.length }
    ∃ chunks, split (.ofNat 7) payload 20 = .ok chunks ∧ chunks.InUse ∧ narrow.Limits 19 ∧
      (sendDirect partly target chunks []).1 = .error (.transport (truncated 5 20)) ∧
      (sendDirect partly target chunks []).2.map (fun a => (a.isDelivered, a.datagram.length)) =
        [(true, 20), (true, 20), (false, 20)] ∧
      (sendDirect narrow target chunks []).1 = .error (.transport nulError) ∧
      (sendDirect narrow target chunks []).2.delivered = [] := by
  intro payload target partly narrow
  let m : Message := ⟨.ofNat 7, payload, 20⟩
  obtain ⟨chunks, hsplit, -⟩ := m.exists_split_of_le (by decide) (by decide)
  have hchunks : chunks.InUse := .split hsplit
  have hlimits : narrow.Limits 19 :=
    ⟨fun _ _ _ h => ⟨_, if_pos h⟩, fun _ _ _ h => if_neg h⟩
  have hliteral : Address.parse? target.host = some (.v4 #v[127, 0, 0, 1]) := by decide +kernel
  have hresolve (net : Network) : target.resolve net = .ok ⟨.v4 #v[127, 0, 0, 1], 12201⟩ := by
    simp only [Target.resolve, Target.addresses, hliteral]
    rfl
  obtain ⟨-, -, -, hpartly, -⟩ := direct_send_stops_at_first_failure partly target [] hchunks
  obtain ⟨-, -, -, -, hnarrow⟩ := direct_send_stops_at_first_failure narrow target [] hchunks
  have hfault : (sendDirect narrow target chunks []).1 = .error (.transport nulError) := by
    rw [sendDirect_of_reaches chunks [] (hresolve narrow) rfl, m.collect_eq_chunkList hsplit]
    decide
  refine ⟨chunks, hsplit, hchunks, hlimits, ?_, ?_, hfault, hnarrow 19 hlimits ?_⟩
  · rw [sendDirect_of_reaches chunks [] (hresolve partly) rfl, m.collect_eq_chunkList hsplit]
    decide
  · rw [hpartly _ (hresolve partly) rfl, Message.chunks_of_split hsplit (by decide)]
    decide
  · rw [hfault]
    exact nofun

end SendDirect

end Gelf.Delivery
