import Gelf.Proofs.Delivery.Losses
import Gelf.Proofs.Shipper.Steps

/-!
# What a shipper carries

A shipper makes no datagrams of its own. All that it gave to a socket, and all that waits in its
queue, came from the messages that were handed on. So what holds of the datagrams of each message
holds of all that a shipper carries, after any run.
-/

namespace Gelf

namespace Delivery

variable {net : Network} {d : Datagram}

theorem mem_offered_sendAll {endpoint : Endpoint} {ds : List Datagram} {wire : Wire}
    (h : d ∈ (sendAll net endpoint ds wire).2.map Attempt.datagram) :
    d ∈ wire.map Attempt.datagram ∨ d ∈ ds := by
  induction ds generalizing wire with
  | nil => exact .inl h
  | cons first ds ih =>
    have hone (h : d ∈ (wire ++ [wire.offer net endpoint first]).map Attempt.datagram) :
        d ∈ wire.map Attempt.datagram ∨ d ∈ first :: ds := by
      rw [List.map_append] at h
      rcases List.mem_append.1 h with hwire | hfirst
      · exact .inl hwire
      · exact .inr (List.mem_singleton.1 hfirst ▸ List.mem_cons_self)
    by_cases hfirst : (wire.offer net endpoint first).isDelivered = true
    · rw [sendAll_cons_of_isDelivered ds hfirst] at h
      rcases ih h with hbefore | hrest
      · exact hone hbefore
      · exact .inr (List.mem_cons_of_mem first hrest)
    · obtain ⟨e, heq⟩ := sendAll_cons_of_not_isDelivered ds hfirst
      rw [heq] at h
      exact hone h

theorem mem_offered_sendDirect {target : Target} {chunks : ChunkCursor} {wire : Wire}
    (h : d ∈ (sendDirect net target chunks wire).2.map Attempt.datagram) :
    d ∈ wire.map Attempt.datagram ∨ d ∈ chunks.collect.map Chunk.datagram := by
  rw [sendDirect] at h
  split at h
  · exact .inl h
  · split at h
    · exact .inl h
    · exact mem_offered_sendAll h

theorem Queue.mem_waiting_offer {queue : Queue} {chunks : ChunkCursor}
    (h : d ∈ (queue.offer chunks).2.waiting) :
    d ∈ queue.waiting ∨ d ∈ chunks.collect.map Chunk.datagram := by
  rw [offer] at h
  split at h
  · exact .inl h
  · rw [fill_eq] at h
    rcases List.mem_append.1 h with hwaiting | htaken
    · exact .inl hwaiting
    · exact .inr (List.mem_of_mem_take htaken)

namespace Accounts

variable {waiting waiting' last : List Datagram} {wire wire' : Wire} {breaks : List Break}

theorem mem_of_waiting (h : Accounts waiting wire breaks last waiting' wire')
    (hd : d ∈ waiting') : d ∈ waiting := by
  rw [h.taken]
  exact List.mem_append_right _ (List.mem_append_right _ hd)

theorem mem_of_offered (h : Accounts waiting wire breaks last waiting' wire')
    (hd : d ∈ wire'.map Attempt.datagram) : d ∈ wire.map Attempt.datagram ∨ d ∈ waiting := by
  have hbreak (b : Break) : b.offered ⊆ b.taken := by
    rw [Break.offered, Break.taken]
    intro d hd
    exact (List.mem_append.1 hd).elim (List.mem_append_left _) fun hfailed =>
      List.mem_append_right _ (List.mem_singleton.1 hfailed ▸ List.mem_cons_self)
  rw [h.offered] at hd
  rcases List.mem_append.1 hd with hwire | hnew
  · exact .inl hwire
  · right
    rw [h.taken]
    rcases List.mem_append.1 hnew with hbreaks | hlast
    · obtain ⟨b, hb, hoffered⟩ := List.mem_flatMap.1 hbreaks
      exact List.mem_append_left _ (List.mem_flatMap.2 ⟨b, hb, hbreak b hoffered⟩)
    · exact List.mem_append_right _ (List.mem_append_left _ hlast)

end Accounts

end Delivery

/-- `P` holds of all datagrams that a pipeline makes of events. -/
def Pipeline.MakesOnly (P : Datagram → Prop) (pipeline : Pipeline) : Prop :=
  ∀ id event cursor, pipeline.chunks id event = .ok cursor →
    ∀ chunk ∈ cursor.collect, P chunk.datagram

namespace Shipper

open Delivery (Attempt Network Queue)

/-- `P` holds of all that was given to a socket, and of all that waits. -/
structure Carries (P : Datagram → Prop) (shipper : Shipper) : Prop where
  wire : ∀ d ∈ shipper.wire.map Attempt.datagram, P d
  waiting : ∀ d ∈ shipper.waiting, P d

namespace Carries

variable {P : Datagram → Prop} {shipper : Shipper}

/-! ### What one step keeps -/

theorem send (h : shipper.Carries P) (net : Network) {chunks : ChunkCursor}
    (hchunks : ∀ chunk ∈ chunks.collect, P chunk.datagram) :
    (shipper.send net chunks).2.Carries P := by
  have hmap : ∀ d ∈ chunks.collect.map Chunk.datagram, P d := List.forall_mem_map.2 hchunks
  cases hroute : shipper.route with
  | direct =>
    rw [send_of_direct hroute]
    refine ⟨?_, h.waiting⟩
    intro d hd
    exact (Delivery.mem_offered_sendDirect hd).elim (h.wire d) (hmap d)
  | queued queue =>
    have hwaiting : shipper.waiting = queue.waiting := by
      rw [Shipper.waiting, hroute]
    rw [send_of_queued hroute]
    refine ⟨h.wire, ?_⟩
    intro d hd
    exact (Queue.mem_waiting_offer hd).elim (fun hold => h.waiting d (hwaiting ▸ hold)) (hmap d)

theorem sendSplit (h : shipper.Carries P) (net : Network) {chunks : Except Fault ChunkCursor}
    (hchunks : ∀ cursor, chunks = .ok cursor → ∀ chunk ∈ cursor.collect, P chunk.datagram) :
    (shipper.sendSplit net chunks).2.Carries P := by
  have hissued : Carries P { shipper with issued := shipper.issued + 1 } := ⟨h.wire, h.waiting⟩
  cases chunks with
  | error fault => exact hissued
  | ok cursor => exact hissued.send net (hchunks cursor rfl)

theorem account (h : shipper.Carries P) (result : Except Fault Nat) :
    (shipper.account result).Carries P := by
  cases result <;> exact ⟨h.wire, h.waiting⟩

theorem connect (h : shipper.Carries P) (net : Network) : (shipper.connect net).2.Carries P := by
  cases hroute : shipper.route with
  | direct =>
    rw [Shipper.connect, hroute]
    exact h
  | queued queue =>
    by_cases hopen : queue.isOpen = true
    · have hwaiting : shipper.waiting = queue.waiting := by
        rw [Shipper.waiting, hroute]
      obtain ⟨breaks, last, haccounts⟩ : ∃ breaks last, Delivery.Accounts queue.waiting
          shipper.wire breaks last
          (Delivery.connect net shipper.target shipper.isLive queue.waiting shipper.wire).waiting
          (Delivery.connect net shipper.target shipper.isLive queue.waiting shipper.wire).wire :=
        Delivery.exists_accounts_drainTo _ _ _ _ _ _ _
      rw [connect_of_queued hroute hopen]
      constructor
      · intro d hd
        exact (haccounts.mem_of_offered hd).elim (h.wire d) fun hold =>
          h.waiting d (hwaiting ▸ hold)
      · intro d hd
        exact h.waiting d (hwaiting ▸ haccounts.mem_of_waiting hd)
    · rw [Shipper.connect, hroute]
      dsimp only
      rw [if_neg hopen]
      exact h

theorem dropConnection (h : shipper.Carries P) : shipper.dropConnection.Carries P := by
  rw [Shipper.dropConnection]
  split
  · exact h
  · exact ⟨h.wire, List.forall_mem_nil _⟩

theorem step (h : shipper.Carries P) (net : Network) (ids : IdSource) {step : Step}
    (hpipeline : shipper.pipeline.MakesOnly P)
    (hstep : ∀ payload limit, step ≠ .send payload limit) :
    (shipper.step net ids step).2.Carries P := by
  have hattempt (event : Event) : (shipper.attempt net ids event).2.Carries P :=
    h.sendSplit net (hpipeline (ids shipper.issued) event)
  cases step with
  | ship event => exact (hattempt event).account _
  | attempt event => exact hattempt event
  | send payload limit => exact absurd rfl (hstep payload limit)
  | connect => exact h.connect net
  | dropConnection => exact h.dropConnection
  | dropSender => exact ⟨h.wire, h.waiting⟩

/-! ### What a run keeps -/

theorem run (h : shipper.Carries P) (ids : IdSource) {steps : List (Network × Step)}
    (hpipeline : shipper.pipeline.MakesOnly P)
    (hsteps : ∀ s ∈ steps, ∀ payload limit, s.2 ≠ .send payload limit) :
    (shipper.run ids steps).2.Carries P := by
  induction steps generalizing shipper with
  | nil => exact h
  | cons s steps ih =>
    have hsame : (shipper.step s.1 ids s.2).2.pipeline = shipper.pipeline :=
      congrArg Prod.fst (setup_step s.1 ids shipper s.2)
    have hstep := h.step s.1 ids hpipeline (hsteps s List.mem_cons_self)
    refine ih hstep (hsame.symm ▸ hpipeline) ?_
    intro s' hs'
    exact hsteps s' (List.mem_cons_of_mem s hs')

end Carries

end Shipper

end Gelf
