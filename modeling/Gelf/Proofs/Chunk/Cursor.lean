import Gelf.Proofs.Chunk.Layout

/-!
# Cursors in use

A cursor that is in use was given by `split` and then asked any number of things. Whatever it is
asked, it moves by `next?` alone, so what `next?` keeps is kept by every answer.
-/

namespace Gelf.ChunkCursor

variable {cursor : ChunkCursor}

/-- The cursors that `split` gives, after any calls. -/
inductive InUse : ChunkCursor → Prop
  | split {id : MessageId} {payload : List UInt8} {limit : UInt64} {cursor : ChunkCursor}
      (h : Gelf.split id payload limit = .ok cursor) : InUse cursor
  | ask {cursor : ChunkCursor} (h : InUse cursor) (query : Query) : InUse (cursor.ask query).2

section Preservation

variable {P : ChunkCursor → Prop}
  (hnext : ∀ {cursor chunk cursor'}, next? cursor = some (chunk, cursor') → P cursor → P cursor')

include hnext

theorem nth_preserves (h : P cursor) (n : Nat) : P (cursor.nth n).2 := by
  induction n generalizing cursor with
  | zero =>
    rw [nth]
    split
    · exact h
    · rename_i hsome
      exact hnext hsome h
  | succ n ih =>
    rw [nth]
    split
    · exact h
    · rename_i hsome
      exact ih (hnext hsome h)

theorem lastFrom_preserves (h : P cursor) (found : Option Chunk) :
    P (lastFrom found cursor).2 := by
  fun_induction lastFrom found cursor with
  | case1 => exact h
  | case2 _ _ _ _ hsome _ ih => exact ih (hnext hsome h)

theorem countFrom_preserves (h : P cursor) (n : Nat) : P (countFrom n cursor).2 := by
  fun_induction countFrom n cursor with
  | case1 => exact h
  | case2 _ _ _ _ hsome _ ih => exact ih (hnext hsome h)

theorem ask_preserves (h : P cursor) (query : Query) : P (cursor.ask query).2 := by
  cases query with
  | next =>
    rw [ask]
    split
    · exact h
    · rename_i hsome
      exact hnext hsome h
  | nth n => exact nth_preserves hnext h n
  | last => exact lastFrom_preserves hnext h none
  | count => exact countFrom_preserves hnext h 0
  | length => exact h
  | bounds => exact h

end Preservation

theorem next_le_count_ask (h : cursor.next ≤ cursor.count) (query : Query) :
    (cursor.ask query).2.next ≤ (cursor.ask query).2.count :=
  ask_preserves (P := fun cursor => cursor.next ≤ cursor.count)
    (fun hsome _ => next_le_count hsome) h query

theorem InUse.next_le_count (h : cursor.InUse) : cursor.next ≤ cursor.count := by
  induction h with
  | @split id payload limit cursor h =>
    let m : Message := ⟨id, payload, limit⟩
    exact m.next_le_count h
  | ask _ query ih => exact next_le_count_ask ih query

end Gelf.ChunkCursor
