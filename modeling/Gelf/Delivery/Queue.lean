import Gelf.Chunk.Cursor
import Gelf.Delivery.Network

/-!
# The delivery queue

Datagrams wait in a queue of limited size until a connection takes them. Each of them holds a permit
while it waits. The permits of a message are reserved all at once, so a message is queued whole or
not at all, and queueing never waits.
-/

namespace Gelf.Delivery

structure Queue where
  capacity : Nat
  /-- How many permits can be reserved. -/
  free : Nat
  waiting : List Datagram
  /-- All datagrams that were ever queued, in order. -/
  accepted : List Datagram
  /-- Whether there is still a connection to take datagrams. -/
  isOpen : Bool
  deriving DecidableEq

namespace Queue

/-- The empty queue. It has room for at least one datagram. -/
def new (buffer : Nat) : Queue :=
  { capacity := max buffer 1, free := max buffer 1, waiting := [], accepted := [], isOpen := true }

def neverFits : IoError where
  kind := .outOfMemory
  text := "message has more chunks than the delivery queue holds"

def closed : IoError where
  kind := .wouldBlock
  text := "delivery queue is closed"

def full : IoError where
  kind := .wouldBlock
  text := "delivery queue is full"

/-- Why permits for a message of `count` datagrams cannot be reserved, if they cannot. -/
def refusal? (queue : Queue) (count : Nat) : Option IoError :=
  if queue.capacity < count then some neverFits
  else if !queue.isOpen then some closed
  else if queue.free < count then some full
  else none

theorem refusal?_eq_none_iff {queue : Queue} {count : Nat} :
    queue.refusal? count = none ↔
      count ≤ queue.capacity ∧ queue.isOpen = true ∧ count ≤ queue.free := by
  unfold refusal?
  split
  · simp only [reduceCtorEq, false_iff, not_and]
    omega
  · split
    · simp_all
    · split <;> simp_all

/-- The reasons for a refusal overlap. The first one is that a message can never fit, and the next
one that the queue is closed. -/
theorem refusal?_eq_some {queue : Queue} {count : Nat}
    (h : ¬ (count ≤ queue.capacity ∧ queue.isOpen = true ∧ count ≤ queue.free)) :
    queue.refusal? count =
      some (if queue.capacity < count then neverFits
        else if queue.isOpen then full
        else closed) := by
  unfold refusal?
  split
  · rfl
  · rename_i hfits
    cases hopen : queue.isOpen with
    | false => rfl
    | true =>
      have hfull : queue.free < count := by
        simp only [hopen, true_and] at h
        omega
      simp only [Bool.not_true, Bool.false_eq_true, if_false, if_true, if_pos hfull]

def reserve (queue : Queue) (count : Nat) : Queue := { queue with free := queue.free - count }

def release (queue : Queue) (count : Nat) : Queue := { queue with free := queue.free + count }

def push (queue : Queue) (ds : List Datagram) : Queue :=
  { queue with waiting := queue.waiting ++ ds, accepted := queue.accepted ++ ds }

/-- Spends reserved permits on the chunks that a cursor has left, one on each. When the chunks end
first, the permits that are left are released. -/
def fill (queue : Queue) : Nat → ChunkCursor → Queue
  | 0, _ => queue
  | n + 1, chunks =>
    match chunks.next? with
    | none => queue.release (n + 1)
    | some (chunk, chunks) => (queue.push [chunk.datagram]).fill n chunks

theorem fill_eq (queue : Queue) (n : Nat) (chunks : ChunkCursor) :
    queue.fill n chunks =
      (queue.push ((chunks.collect.map Chunk.datagram).take n)).release
        (n - chunks.collect.length) := by
  induction n generalizing queue chunks with
  | zero => simp [fill, push, release]
  | succ n ih =>
    rw [fill]
    cases hnext : chunks.next? with
    | none => simp [ChunkCursor.collect_of_next?_eq_none hnext, push, release]
    | some p =>
      obtain ⟨chunk, chunks'⟩ := p
      simp [ih, ChunkCursor.collect_of_next?_eq_some hnext, push, release]

/-- Queues the chunks that a cursor has left, all or none. -/
def offer (queue : Queue) (chunks : ChunkCursor) : Except Fault Nat × Queue :=
  let count := chunks.remaining
  match queue.refusal? count with
  | some e => (.error (.transport e), queue)
  | none => (.ok count, (queue.reserve count).fill count chunks)

theorem offer_of_refusal {queue : Queue} {chunks : ChunkCursor} {e : IoError}
    (h : queue.refusal? chunks.remaining = some e) :
    queue.offer chunks = (.error (.transport e), queue) := by
  simp only [offer, h]

/-- A cursor has as many chunks left as it says, so all permits are spent. -/
theorem offer_of_no_refusal {queue : Queue} {chunks : ChunkCursor}
    (h : queue.refusal? chunks.remaining = none) (hchunks : chunks.next ≤ chunks.count) :
    queue.offer chunks =
      (.ok chunks.remaining,
        (queue.reserve chunks.remaining).push (chunks.collect.map Chunk.datagram)) := by
  have hlength := ChunkCursor.length_collect hchunks
  have hdatagrams : (chunks.collect.map Chunk.datagram).length = chunks.remaining := by
    rw [List.length_map, hlength]
  simp only [offer, h, fill_eq]
  rw [List.take_of_length_le (Nat.le_of_eq hdatagrams), hlength, Nat.sub_self]
  rfl

/-- The queue when a connection took datagrams off its front and left these. Each datagram that was
taken gives its permit back. -/
def drainedTo (queue : Queue) (waiting : List Datagram) : Queue :=
  { queue with waiting, free := queue.free + (queue.waiting.length - waiting.length) }

@[simp]
theorem waiting_drainedTo (queue : Queue) (waiting : List Datagram) :
    (queue.drainedTo waiting).waiting = waiting := rfl

theorem drainedTo_waiting (queue : Queue) : queue.drainedTo queue.waiting = queue := by
  rw [drainedTo, Nat.sub_self]
  rfl

/-- The queue when its connection is gone, and with it all that waited. -/
def close (queue : Queue) : Queue := { queue.drainedTo [] with isOpen := false }

end Queue

end Gelf.Delivery
