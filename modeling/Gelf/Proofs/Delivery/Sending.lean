import Gelf.Delivery.Direct
import Gelf.Proofs.Delivery.Draining

/-!
# Sending at once

A direct route gives all datagrams of a message to the network, up to the first one that is not
written in full. So a message that succeeds is delivered, and one that is delivered succeeds.
-/

namespace Gelf.Delivery

section SendAll

variable {net : Network} {endpoint : Endpoint}

theorem sendAll_cons_of_isDelivered {d : Datagram} {wire : Wire} (ds : List Datagram)
    (h : (wire.offer net endpoint d).isDelivered = true) :
    sendAll net endpoint (d :: ds) wire =
      ((sendAll net endpoint ds (wire ++ [wire.offer net endpoint d])).1.map (· + 1),
        (sendAll net endpoint ds (wire ++ [wire.offer net endpoint d])).2) := by
  have hwritten : (wire.offer net endpoint d).outcome = .written d.length := of_decide_eq_true h
  rw [sendAll]
  simp only [hwritten, if_true]

theorem sendAll_cons_of_not_isDelivered {d : Datagram} {wire : Wire} (ds : List Datagram)
    (h : ¬ (wire.offer net endpoint d).isDelivered = true) :
    ∃ e, sendAll net endpoint (d :: ds) wire = (.error e, wire ++ [wire.offer net endpoint d]) := by
  rw [sendAll]
  dsimp only
  split
  · exact ⟨_, rfl⟩
  · rename_i n hwritten
    have hpart : ¬ n = d.length := by
      rintro rfl
      exact h (decide_eq_true hwritten)
    rw [if_neg hpart]
    exact ⟨_, rfl⟩

theorem prefix_sendAll (net : Network) (endpoint : Endpoint) (ds : List Datagram) (wire : Wire) :
    wire <+: (sendAll net endpoint ds wire).2 := by
  induction ds generalizing wire with
  | nil => exact List.prefix_rfl
  | cons d ds ih =>
    have hone : wire <+: wire ++ [wire.offer net endpoint d] := List.prefix_append _ _
    by_cases hd : (wire.offer net endpoint d).isDelivered = true
    · rw [sendAll_cons_of_isDelivered ds hd]
      exact hone.trans (ih _)
    · obtain ⟨e, heq⟩ := sendAll_cons_of_not_isDelivered ds hd
      rw [heq]
      exact hone

/-- A message that succeeds is delivered. -/
theorem delivered_of_sendAll {ds : List Datagram} {wire wire' : Wire} {n : Nat}
    (h : sendAll net endpoint ds wire = (.ok n, wire')) :
    wire'.delivered = wire.delivered ++ ds := by
  induction ds generalizing wire n with
  | nil =>
    cases h
    exact (List.append_nil _).symm
  | cons d ds ih =>
    by_cases hd : (wire.offer net endpoint d).isDelivered = true
    · rw [sendAll_cons_of_isDelivered ds hd] at h
      obtain ⟨result, wire'', hrest⟩ :
          ∃ result wire'', sendAll net endpoint ds (wire ++ [wire.offer net endpoint d]) =
            (result, wire'') := ⟨_, _, rfl⟩
      rw [hrest] at h
      cases result with
      | error e => cases h
      | ok k =>
        cases h
        rw [ih hrest, Wire.delivered_append, Wire.delivered_singleton_of_isDelivered hd,
          List.append_assoc]
        rfl
    · obtain ⟨e, heq⟩ := sendAll_cons_of_not_isDelivered ds hd
      rw [heq] at h
      cases h

/-- When each datagram on the wire was written in full, no send failed. -/
theorem sendAll_of_all_delivered {ds : List Datagram} {wire : Wire}
    (hall : ∀ a ∈ (sendAll net endpoint ds wire).2, a.isDelivered = true) :
    (sendAll net endpoint ds wire).1 = .ok ds.length := by
  induction ds generalizing wire with
  | nil => rfl
  | cons d ds ih =>
    by_cases hd : (wire.offer net endpoint d).isDelivered = true
    · rw [sendAll_cons_of_isDelivered ds hd] at hall ⊢
      rw [ih hall]
      rfl
    · obtain ⟨e, heq⟩ := sendAll_cons_of_not_isDelivered ds hd
      rw [heq] at hall
      exact absurd (hall _ (by simp)) hd

end SendAll

/-! ### Messages -/

variable {net : Network} {target : Target} {chunks : ChunkCursor} {wire wire' : Wire}

theorem prefix_sendDirect (net : Network) (target : Target) (chunks : ChunkCursor) (wire : Wire) :
    wire <+: (sendDirect net target chunks wire).2 := by
  rw [sendDirect]
  split
  · exact List.prefix_rfl
  · split
    · exact List.prefix_rfl
    · exact prefix_sendAll _ _ _ _

theorem delivered_of_sendDirect {n : Nat} (h : sendDirect net target chunks wire = (.ok n, wire')) :
    wire'.delivered = wire.delivered ++ chunks.collect.map Chunk.datagram := by
  unfold sendDirect at h
  split at h
  · cases h
  · rename_i endpoint _
    split at h
    · cases h
    · obtain ⟨result, wire'', hsend⟩ :
          ∃ result wire'', sendAll net endpoint (chunks.collect.map Chunk.datagram) wire =
            (result, wire'') := ⟨_, _, rfl⟩
      rw [hsend] at h
      cases result with
      | error e => cases h
      | ok k =>
        cases h
        exact delivered_of_sendAll hsend

/-- The target resolves, and there is a socket for its first address. -/
def Network.Reaches (net : Network) (target : Target) : Prop :=
  ∃ endpoint, target.resolve net = .ok endpoint ∧ net.socketError endpoint.address = none

theorem sendDirect_of_all_delivered (hreaches : net.Reaches target)
    (hall : ∀ a ∈ (sendDirect net target chunks wire).2, a.isDelivered = true) :
    (sendDirect net target chunks wire).1 = .ok chunks.collect.length := by
  obtain ⟨endpoint, hresolve, hsocket⟩ := hreaches
  simp only [sendDirect, hresolve, hsocket] at hall ⊢
  rw [sendAll_of_all_delivered hall, List.length_map]
  rfl

end Gelf.Delivery
