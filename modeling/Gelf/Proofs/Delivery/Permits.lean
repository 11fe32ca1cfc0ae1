import Gelf.Delivery.Queue

/-!
# Permits

No permit is lost and none is used twice: each of them is free or held by a datagram that waits.
Queueing, taking datagrams out and closing the queue keep this balance, so the free permits are the
room that the waiting datagrams leave.
-/

namespace Gelf.Delivery.Queue

/-- Each permit of the queue is free or held by a waiting datagram. -/
structure Balanced (capacity : Nat) (queue : Queue) : Prop where
  capacity_eq : queue.capacity = capacity
  free_add_length : queue.free + queue.waiting.length = capacity

namespace Balanced

variable {capacity : Nat} {queue : Queue}

theorem new (buffer : Nat) : Balanced (max buffer 1) (.new buffer) where
  capacity_eq := rfl
  free_add_length := Nat.add_zero _

theorem length_le (h : Balanced capacity queue) : queue.waiting.length ≤ capacity := by
  have hsum := h.free_add_length
  omega

theorem free_eq (h : Balanced capacity queue) :
    queue.free = capacity - queue.waiting.length := by
  have hsum := h.free_add_length
  omega

/-- Whether permits can be reserved is told by the datagrams that wait. -/
theorem refusal?_eq_none_iff_room (h : Balanced capacity queue) {count : Nat} :
    queue.refusal? count = none ↔
      queue.isOpen = true ∧ count ≤ capacity - queue.waiting.length := by
  have hle : capacity - queue.waiting.length ≤ capacity := Nat.sub_le _ _
  rw [refusal?_eq_none_iff, h.capacity_eq, h.free_eq]
  exact ⟨fun hall => hall.2, fun hroom => ⟨Nat.le_trans hroom.2 hle, hroom⟩⟩

theorem push (h : Balanced capacity queue) {ds : List Datagram} (hroom : ds.length ≤ queue.free) :
    Balanced capacity ((queue.reserve ds.length).push ds) where
  capacity_eq := h.capacity_eq
  free_add_length := by
    have hsum := h.free_add_length
    simp only [Queue.push, reserve, List.length_append]
    omega

/-- Chunks that are offered get all the permits they need, or none. -/
theorem offer (h : Balanced capacity queue) {chunks : ChunkCursor}
    (hchunks : chunks.next ≤ chunks.count) : Balanced capacity (queue.offer chunks).2 := by
  cases hrefusal : queue.refusal? chunks.remaining with
  | some e => simpa [offer_of_refusal hrefusal] using h
  | none =>
    have hlength : (chunks.collect.map Chunk.datagram).length = chunks.remaining := by
      rw [List.length_map, ChunkCursor.length_collect hchunks]
    have hroom := (refusal?_eq_none_iff.1 hrefusal).2.2
    rw [offer_of_no_refusal hrefusal hchunks, ← hlength]
    exact h.push (hlength ▸ hroom)

theorem drainedTo (h : Balanced capacity queue) {waiting : List Datagram}
    (hlength : waiting.length ≤ queue.waiting.length) :
    Balanced capacity (queue.drainedTo waiting) where
  capacity_eq := h.capacity_eq
  free_add_length := by
    have hsum := h.free_add_length
    simp only [Queue.drainedTo]
    omega

theorem close (h : Balanced capacity queue) : Balanced capacity queue.close where
  capacity_eq := h.capacity_eq
  free_add_length := (h.drainedTo (Nat.zero_le _)).free_add_length

end Balanced

end Gelf.Delivery.Queue
