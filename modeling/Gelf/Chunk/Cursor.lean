import Gelf.Chunk.Basic

/-!
# Cursors over the chunks of a message

A cursor makes the chunks of a payload one by one, in order of their indices. It knows at each
moment how many are left.
-/

namespace Gelf

/-- A position among the chunks of a payload. Without an id the payload is a single chunk. -/
structure ChunkCursor where
  payload : List UInt8
  id : Option MessageId
  /-- How many octets of the payload go into a chunk. -/
  usable : Nat
  count : UInt8
  next : UInt8
  deriving DecidableEq

namespace ChunkCursor

def isUnchunked (cursor : ChunkCursor) : Bool := cursor.id.isNone

def chunkAt (cursor : ChunkCursor) (index : UInt8) : Chunk :=
  match cursor.id with
  | none => { header := none, payload := cursor.payload }
  | some id =>
    { header := some { id, index, count := cursor.count }
      payload := (cursor.payload.drop (index.toNat * cursor.usable)).take cursor.usable }

def next? (cursor : ChunkCursor) : Option (Chunk × ChunkCursor) :=
  if cursor.next < cursor.count then
    some (cursor.chunkAt cursor.next, { cursor with next := cursor.next + 1 })
  else none

def remaining (cursor : ChunkCursor) : Nat := (cursor.count - cursor.next).toNat

theorem next?_eq_some_iff {cursor cursor' : ChunkCursor} {chunk : Chunk} :
    cursor.next? = some (chunk, cursor') ↔ cursor.next < cursor.count ∧
      chunk = cursor.chunkAt cursor.next ∧ cursor' = { cursor with next := cursor.next + 1 } := by
  unfold next?
  split
  · simp_all [eq_comm]
  · rename_i h
    exact ⟨fun hsome => absurd hsome (by simp), fun hsome => absurd hsome.1 h⟩

theorem next?_eq_none_iff {cursor : ChunkCursor} :
    cursor.next? = none ↔ cursor.count ≤ cursor.next := by
  unfold next?
  split <;> simp_all

theorem toNat_next_add_one {cursor : ChunkCursor} (h : cursor.next < cursor.count) :
    (cursor.next + 1).toNat = cursor.next.toNat + 1 := by
  have hlt := UInt8.lt_iff_toNat_lt.1 h
  have hcount := cursor.count.toNat_lt
  rw [UInt8.toNat_add, UInt8.toNat_one]
  omega

theorem gap_decreases {cursor cursor' : ChunkCursor} {chunk : Chunk}
    (h : cursor.next? = some (chunk, cursor')) :
    cursor'.count.toNat - cursor'.next.toNat < cursor.count.toNat - cursor.next.toNat := by
  obtain ⟨hlt, -, rfl⟩ := next?_eq_some_iff.1 h
  have hlt' := UInt8.lt_iff_toNat_lt.1 hlt
  simp only [toNat_next_add_one hlt]
  omega

theorem remaining_eq {cursor : ChunkCursor} (h : cursor.next ≤ cursor.count) :
    cursor.remaining = cursor.count.toNat - cursor.next.toNat :=
  UInt8.toNat_sub_of_le _ _ h

theorem next_le_count {cursor cursor' : ChunkCursor} {chunk : Chunk}
    (h : cursor.next? = some (chunk, cursor')) : cursor'.next ≤ cursor'.count := by
  obtain ⟨hlt, -, rfl⟩ := next?_eq_some_iff.1 h
  rw [UInt8.le_iff_toNat_le, toNat_next_add_one hlt]
  exact UInt8.lt_iff_toNat_lt.1 hlt

/-- Skips `n` chunks and takes one. Once the chunks are exhausted nothing is skipped any more. -/
def nth (cursor : ChunkCursor) : Nat → Option Chunk × ChunkCursor
  | 0 =>
    match cursor.next? with
    | none => (none, cursor)
    | some (chunk, cursor') => (some chunk, cursor')
  | n + 1 =>
    match cursor.next? with
    | none => (none, cursor)
    | some (_, cursor') => cursor'.nth n

/-- The last of the chunks that are left, if any, and the cursor behind all of them. `found` is the
last one so far. -/
def lastFrom (found : Option Chunk) (cursor : ChunkCursor) : Option Chunk × ChunkCursor :=
  match h : cursor.next? with
  | none => (found, cursor)
  | some (chunk, cursor') =>
    have := gap_decreases h
    lastFrom (some chunk) cursor'
termination_by cursor.count.toNat - cursor.next.toNat

def last (cursor : ChunkCursor) : Option Chunk × ChunkCursor := lastFrom none cursor

def collect (cursor : ChunkCursor) : List Chunk :=
  match h : cursor.next? with
  | none => []
  | some (chunk, cursor') =>
    have := gap_decreases h
    chunk :: collect cursor'
termination_by cursor.count.toNat - cursor.next.toNat

theorem collect_of_next?_eq_none {cursor : ChunkCursor} (h : cursor.next? = none) :
    cursor.collect = [] := by
  rw [collect]
  split <;> simp_all

theorem collect_of_next?_eq_some {cursor cursor' : ChunkCursor} {chunk : Chunk}
    (h : cursor.next? = some (chunk, cursor')) : cursor.collect = chunk :: cursor'.collect := by
  rw [collect]
  split <;> simp_all

/-- A cursor yields as many chunks as it says are left. -/
theorem length_collect {cursor : ChunkCursor} (h : cursor.next ≤ cursor.count) :
    cursor.collect.length = cursor.remaining := by
  fun_induction collect cursor with
  | case1 cursor hnone =>
    have heq := UInt8.le_antisymm h (next?_eq_none_iff.1 hnone)
    simp [remaining, heq]
  | case2 cursor chunk cursor' hsome hgap ih =>
    have hle := next_le_count hsome
    obtain ⟨hlt, -, rfl⟩ := next?_eq_some_iff.1 hsome
    have hlt' := UInt8.lt_iff_toNat_lt.1 hlt
    rw [List.length_cons, ih hle, remaining_eq hle, remaining_eq h]
    simp only [toNat_next_add_one hlt]
    omega

/-- Takes all chunks that are left and counts them. -/
def countFrom (n : Nat) (cursor : ChunkCursor) : Nat × ChunkCursor :=
  match h : cursor.next? with
  | none => (n, cursor)
  | some (_, cursor') =>
    have := gap_decreases h
    countFrom (n + 1) cursor'
termination_by cursor.count.toNat - cursor.next.toNat

inductive Query
  | next
  | nth (n : Nat)
  | last
  | count
  | length
  | bounds
  deriving DecidableEq, Repr

inductive Answer
  | chunk (chunk : Option Chunk)
  | number (n : Nat)
  | bounds (lower upper : Nat)
  deriving DecidableEq

def ask (cursor : ChunkCursor) : Query → Answer × ChunkCursor
  | .next =>
    match cursor.next? with
    | none => (.chunk none, cursor)
    | some (chunk, cursor') => (.chunk (some chunk), cursor')
  | .nth n => (.chunk (cursor.nth n).1, (cursor.nth n).2)
  | .last => (.chunk cursor.last.1, cursor.last.2)
  | .count => (.number (countFrom 0 cursor).1, (countFrom 0 cursor).2)
  | .length => (.number cursor.remaining, cursor)
  | .bounds => (.bounds cursor.remaining cursor.remaining, cursor)

end ChunkCursor

end Gelf
