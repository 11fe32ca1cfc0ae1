import Gelf.Proofs.Chunk.Cursor
import Gelf.Proofs.Delivery.Conservation

/-!
# Admission to the queue

Whether chunks are admitted depends on the queue alone: its connection has to be there, and the
datagrams that wait have to leave room for all of them. This is so in each state that a shipper can
reach, also while a connection is still taking datagrams, because nothing that happens to a shipper
loses a permit.
-/

namespace Gelf

theorem Pipeline.inUse_of_chunks {pipeline : Pipeline} {id : MessageId} {event : Event}
    {chunks : ChunkCursor} (h : pipeline.chunks id event = .ok chunks) : chunks.InUse := by
  rw [Pipeline.chunks] at h
  split at h
  · cases h
  · exact .split h

namespace Shipper

open Delivery (Network Queue Target)

/-- Takes datagrams off the front of the queue, as a connection does while it runs. -/
def take (shipper : Shipper) (n : Nat) : Shipper :=
  match shipper.route with
  | .direct => shipper
  | .queued queue => { shipper with route := .queued (queue.drainedTo (queue.waiting.drop n)) }

/-- What becomes of a shipper, whatever happens to it and to its connection. -/
inductive Reaches (ids : IdSource) (start : Shipper) : Shipper → Prop
  | refl : Reaches ids start start
  | step {shipper : Shipper} (h : Reaches ids start shipper) (net : Network) (step : Step) :
    Reaches ids start (shipper.step net ids step).2
  | send {shipper : Shipper} (h : Reaches ids start shipper) (net : Network) {chunks : ChunkCursor}
    (hchunks : chunks.InUse) : Reaches ids start (shipper.send net chunks).2
  | take {shipper : Shipper} (h : Reaches ids start shipper) (n : Nat) :
    Reaches ids start (shipper.take n)

theorem Reaches.run {ids : IdSource} {start shipper : Shipper} (h : start.Reaches ids shipper)
    (steps : List (Network × Step)) : start.Reaches ids (shipper.run ids steps).2 := by
  induction steps generalizing shipper with
  | nil => exact h
  | cons s steps ih => exact ih (h.step s.1 s.2)

/-- A queued shipper none of whose permits is lost. -/
def Balances (capacity : Nat) (shipper : Shipper) : Prop :=
  ∃ queue, shipper.route = .queued queue ∧ queue.Balanced capacity

theorem balances_of_queued {builder : Builder} {hostname : Hostname} {target : Target}
    {buffer : Nat} {codec : Codec} {shipper : Shipper}
    (hbuilt : builder.queued hostname target buffer codec = .ok shipper) :
    shipper.Balances (max buffer 1) := by
  obtain ⟨queue, hroute, -, hqueue⟩ := conserves_of_queued hbuilt
  exact ⟨queue, hroute, hqueue.balanced⟩

variable {net : Network} {ids : IdSource} {capacity : Nat} {shipper : Shipper}

namespace Balances

theorem send (h : shipper.Balances capacity) (net : Network) {chunks : ChunkCursor}
    (hchunks : chunks.InUse) : (shipper.send net chunks).2.Balances capacity := by
  obtain ⟨queue, hroute, hqueue⟩ := h
  rw [send_of_queued hroute]
  exact ⟨_, rfl, hqueue.offer hchunks.next_le_count⟩

theorem sendSplit (h : shipper.Balances capacity) (net : Network)
    {chunks : Except Fault ChunkCursor} (hchunks : ∀ cursor, chunks = .ok cursor → cursor.InUse) :
    (shipper.sendSplit net chunks).2.Balances capacity := by
  -- Using up a message id leaves the queue as it is.
  have hissued : Balances capacity { shipper with issued := shipper.issued + 1 } := h
  cases chunks with
  | error fault => exact hissued
  | ok cursor => exact hissued.send net (hchunks cursor rfl)

theorem account (h : shipper.Balances capacity) (result : Except Fault Nat) :
    (shipper.account result).Balances capacity := by
  cases result <;> exact h

theorem connect (h : shipper.Balances capacity) (net : Network) :
    (shipper.connect net).2.Balances capacity := by
  obtain ⟨queue, hroute, hqueue⟩ := h
  by_cases hopen : queue.isOpen = true
  · have hdrains := Delivery.connect_drains net shipper.target shipper.isLive queue.waiting
      shipper.wire
    rw [connect_of_queued hroute hopen]
    exact ⟨_, rfl, hqueue.drainedTo hdrains.length_le⟩
  · simp only [Shipper.connect, hroute, if_neg hopen]
    exact ⟨queue, hroute, hqueue⟩

theorem dropConnection (h : shipper.Balances capacity) :
    shipper.dropConnection.Balances capacity := by
  obtain ⟨queue, hroute, hqueue⟩ := h
  simp only [Shipper.dropConnection, hroute]
  exact ⟨_, rfl, hqueue.close⟩

theorem step (h : shipper.Balances capacity) (net : Network) (ids : IdSource) (step : Step) :
    (shipper.step net ids step).2.Balances capacity := by
  cases step with
  | ship event => exact (h.sendSplit net fun _ => Pipeline.inUse_of_chunks).account _
  | attempt event => exact h.sendSplit net fun _ => Pipeline.inUse_of_chunks
  | send payload limit => exact h.sendSplit net fun _ => .split
  | connect => exact h.connect net
  | dropConnection => exact h.dropConnection
  | dropSender => exact h

theorem take (h : shipper.Balances capacity) (n : Nat) : (shipper.take n).Balances capacity := by
  obtain ⟨queue, hroute, hqueue⟩ := h
  have hlength := (List.drop_sublist n queue.waiting).length_le
  simp only [Shipper.take, hroute]
  exact ⟨_, rfl, hqueue.drainedTo hlength⟩

theorem of_reaches {start : Shipper} (h : start.Balances capacity)
    (hreaches : start.Reaches ids shipper) : shipper.Balances capacity := by
  induction hreaches with
  | refl => exact h
  | step _ net step ih => exact ih.step net ids step
  | send _ net hchunks ih => exact ih.send net hchunks
  | take _ n ih => exact ih.take n

end Balances

/-! ### What is admitted -/

section Send

variable {queue : Queue} {chunks : ChunkCursor}

theorem send_of_refusal (hroute : shipper.route = .queued queue) {e : IoError}
    (h : queue.refusal? chunks.remaining = some e) :
    shipper.send net chunks = (.error (.transport e), shipper) := by
  rw [send_of_queued hroute, Queue.offer_of_refusal h, ← hroute]

theorem send_of_no_refusal (hroute : shipper.route = .queued queue) (hchunks : chunks.InUse)
    (h : queue.refusal? chunks.remaining = none) :
    shipper.send net chunks =
      (.ok chunks.remaining,
        { shipper with
          route := .queued
            ((queue.reserve chunks.remaining).push (chunks.collect.map Chunk.datagram)) }) := by
  rw [send_of_queued hroute, Queue.offer_of_no_refusal h hchunks.next_le_count]

theorem send_eq_ok_iff (hroute : shipper.route = .queued queue) (hchunks : chunks.InUse) :
    (shipper.send net chunks).1 = .ok chunks.remaining ↔
      queue.refusal? chunks.remaining = none := by
  cases hrefusal : queue.refusal? chunks.remaining with
  | none =>
    rw [send_of_no_refusal hroute hchunks hrefusal]
    exact iff_of_true rfl rfl
  | some e =>
    rw [send_of_refusal hroute hrefusal]
    exact iff_of_false nofun nofun

end Send

/-- **Admission.** Whatever happened before, chunks are queued if and only if the connection is
there and the datagrams that wait leave room for all of them. Otherwise nothing at all changes. -/
theorem queued_send_is_exact {ids : IdSource} {builder : Builder} {hostname : Hostname}
    {target : Target} {buffer : Nat} {codec : Codec} {start shipper : Shipper}
    (hbuilt : builder.queued hostname target buffer codec = .ok start)
    (hreaches : start.Reaches ids shipper) (net : Network) {chunks : ChunkCursor}
    (hchunks : chunks.InUse) :
    ∃ queue, shipper.route = .queued queue ∧
      let capacity := max buffer 1
      let room := capacity - queue.waiting.length
      let count := chunks.remaining
      let ds := chunks.collect.map Chunk.datagram
      ds.length = count ∧
      queue.free + queue.waiting.length = capacity ∧
      ((shipper.send net chunks).1 = .ok count ↔ queue.isOpen = true ∧ count ≤ room) ∧
      (queue.isOpen = true ∧ count ≤ room →
        shipper.send net chunks =
          (.ok count,
            { shipper with
              route := .queued
                { queue with
                  free := room - count
                  waiting := queue.waiting ++ ds
                  accepted := queue.accepted ++ ds } })) ∧
      (¬ (queue.isOpen = true ∧ count ≤ room) →
        shipper.send net chunks =
          (.error (.transport
            (if capacity < count then Queue.neverFits
              else if queue.isOpen then Queue.full
              else Queue.closed)),
            shipper)) := by
  obtain ⟨queue, hroute, hqueue⟩ := (balances_of_queued hbuilt).of_reaches hreaches
  refine ⟨queue, hroute, ?_⟩
  intro capacity room count ds
  have hadmits : queue.refusal? count = none ↔ queue.isOpen = true ∧ count ≤ room :=
    hqueue.refusal?_eq_none_iff_room
  refine ⟨?_, hqueue.free_add_length, ?_, ?_, ?_⟩
  · rw [List.length_map, ChunkCursor.length_collect hchunks.next_le_count]
  · exact (send_eq_ok_iff hroute hchunks).trans hadmits
  · intro hroom
    have hfree : queue.free = room := hqueue.free_eq
    rw [send_of_no_refusal hroute hchunks (hadmits.2 hroom), ← hfree]
    rfl
  · intro hrefused
    rw [← hadmits, Queue.refusal?_eq_none_iff] at hrefused
    rw [send_of_refusal hroute (Queue.refusal?_eq_some hrefused), hqueue.capacity_eq]

/-- A queue of three refuses a second message of two chunks and loses the first one to a failing
send. Then it takes what a cursor over three chunks has left. -/
theorem rest_of_a_message_is_queued :
    let builder : Builder := { sourceHost := some "relay" }
    let failing : Network :=
      { Network.lossless with outcome _ _ _ := .failed { kind := .networkUnreachable, text := "" } }
    let steps : List (Network × Step) :=
      [(failing, .send [1, 2] 1), (failing, .send [3, 4] 1), (failing, .connect),
        (failing, .send [5] 1)]
    ∃ start cursor, builder.queued (.name "") ⟨"127.0.0.1", 12201⟩ 3 .own = .ok start ∧
      split (.ofNat 0) [6, 7, 8] 1 = .ok cursor ∧
      let shipper := (start.run MessageId.ofNat steps).2
      let chunks := (cursor.ask .next).2
      start.Reaches MessageId.ofNat shipper ∧
      chunks.InUse ∧
      shipper.waiting = [[5]] ∧
      chunks.remaining = 2 ∧
      (shipper.send failing chunks).1 = .ok 2 := by
  intro builder failing steps
  cases hbuilt : builder.queued (.name "") ⟨"127.0.0.1", 12201⟩ 3 .own with
  | error e => cases hbuilt
  | ok start =>
    cases hsplit : split (.ofNat 0) [6, 7, 8] 1 with
    | error e => cases hsplit
    | ok cursor =>
      refine ⟨start, cursor, rfl, rfl, ?_⟩
      intro shipper chunks
      have hreaches : start.Reaches MessageId.ofNat shipper := Reaches.refl.run steps
      have hchunks : chunks.InUse := (ChunkCursor.InUse.split hsplit).ask .next
      obtain ⟨queue, hroute, -, -, hadmits, -⟩ :=
        queued_send_is_exact hbuilt hreaches failing hchunks
      have hwaiting : shipper.waiting = queue.waiting := by
        simp only [waiting, hroute]
      cases hbuilt
      cases hsplit
      have hone : shipper.waiting = [[5]] := by decide +kernel
      have htwo : chunks.remaining = 2 := by decide +kernel
      have hopen : queue.isOpen = true := by
        have htarget : shipper.connectionTarget? ≠ none := by decide +kernel
        simpa [connectionTarget?, hroute] using htarget
      refine ⟨hreaches, hchunks, hone, htwo, ?_⟩
      rw [← htwo]
      apply hadmits.2
      rw [← hwaiting, hone, htwo]
      exact ⟨hopen, by decide⟩

end Shipper

end Gelf
