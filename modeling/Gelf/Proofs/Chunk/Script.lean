import Gelf.Proofs.Chunk.Cursor

/-!
# Scripts of calls

A cursor computes each chunk when it is asked for, and knows how many are left by counting. The list
of its chunks would do as well: every call takes something off the front of the list, and the answer
can be read off what is there. A script of calls cannot tell the two apart.
-/

namespace Gelf.ChunkCursor

/-! ### A list in place of a cursor -/

/-- The answer of a list of the chunks that are left, and the chunks that are left then. -/
def askList (left : List Chunk) : Query → Answer × List Chunk
  | .next => (.chunk left.head?, left.tail)
  | .nth n => (.chunk left[n]?, left.drop (n + 1))
  | .last => (.chunk left.getLast?, [])
  | .count => (.number left.length, [])
  | .length => (.number left.length, left)
  | .bounds => (.bounds left.length left.length, left)

/-- The answer when no chunk is left. -/
def exhausted : Query → Answer
  | .next | .nth _ | .last => .chunk none
  | .count | .length => .number 0
  | .bounds => .bounds 0 0

theorem askList_nil (query : Query) : askList [] query = (exhausted query, []) := by
  cases query <;> rfl

/-- Where no chunk was found, none is left. -/
theorem left_of_askList_eq_none {left : List Chunk} {query : Query}
    (h : (askList left query).1 = .chunk none) : (askList left query).2 = [] := by
  cases query with
  | next =>
    have hhead : left.head? = none := Answer.chunk.inj h
    rw [List.head?_eq_none_iff.1 hhead]
    rfl
  | nth n =>
    have hbeyond : left[n]? = none := Answer.chunk.inj h
    exact List.drop_of_length_le (Nat.le_succ_of_le (List.getElem?_eq_none_iff.1 hbeyond))
  | last => rfl
  | count => rfl
  | length => cases h
  | bounds => cases h

/-! ### Scripts -/

/-- The answers to a script of calls, each with its call, and what the last one leaves. -/
def replay {σ : Type} (ask : σ → Query → Answer × σ) (s : σ) :
    List Query → List (Query × Answer) × σ
  | [] => ([], s)
  | query :: script =>
    ((query, (ask s query).1) :: (replay ask (ask s query).2 script).1,
      (replay ask (ask s query).2 script).2)

theorem replay_preserves {σ : Type} {ask : σ → Query → Answer × σ} {P : σ → Prop}
    (hask : ∀ s query, P s → P (ask s query).2) {s : σ} (h : P s) (script : List Query) :
    P (replay ask s script).2 := by
  induction script generalizing s with
  | nil => exact h
  | cons query script ih => exact ih (hask s query h)

/-- Two states that answer alike and stay related answer every script alike. -/
theorem replay_simulates {σ τ : Type} {ask : σ → Query → Answer × σ} {ask' : τ → Query → Answer × τ}
    {R : σ → τ → Prop}
    (hask : ∀ s t query, R s t → (ask s query).1 = (ask' t query).1 ∧
      R (ask s query).2 (ask' t query).2)
    {s : σ} {t : τ} (h : R s t) (script : List Query) :
    (replay ask s script).1 = (replay ask' t script).1 ∧
      R (replay ask s script).2 (replay ask' t script).2 := by
  induction script generalizing s t with
  | nil => exact ⟨rfl, h⟩
  | cons query script ih =>
    obtain ⟨hanswer, hstep⟩ := hask s t query h
    obtain ⟨hanswers, hend⟩ := ih hstep
    refine ⟨?_, hend⟩
    rw [replay, replay, hanswer, hanswers]

theorem exhausted_of_mem_replay_nil {script : List Query} {call : Query × Answer}
    (h : call ∈ (replay askList [] script).1) : call.2 = exhausted call.1 := by
  induction script with
  | nil => cases h
  | cons query script ih =>
    rw [replay, askList_nil] at h
    rcases List.mem_cons.1 h with rfl | h
    · rfl
    · exact ih h

/-- Once no chunk was found, every call is answered as by the empty list. -/
theorem pairwise_replay_askList (left : List Chunk) (script : List Query) :
    (replay askList left script).1.Pairwise fun earlier later =>
      earlier.2 = .chunk none → later.2 = exhausted later.1 := by
  induction script generalizing left with
  | nil => exact .nil
  | cons query script ih =>
    refine .cons ?_ (ih _)
    intro later hlater hnone
    rw [left_of_askList_eq_none hnone] at hlater
    exact exhausted_of_mem_replay_nil hlater

/-! ### What each call takes -/

variable {cursor cursor' : ChunkCursor} {chunk : Chunk}

theorem nth_eq (cursor : ChunkCursor) (n : Nat) :
    (cursor.nth n).1 = cursor.collect[n]? ∧
      (cursor.nth n).2.collect = cursor.collect.drop (n + 1) := by
  induction n generalizing cursor with
  | zero =>
    cases hnext : cursor.next? with
    | none => simp [nth, hnext, collect_of_next?_eq_none hnext]
    | some p => simp [nth, hnext, collect_of_next?_eq_some hnext]
  | succ n ih =>
    cases hnext : cursor.next? with
    | none => simp [nth, hnext, collect_of_next?_eq_none hnext]
    | some p => simp [nth, hnext, collect_of_next?_eq_some hnext, ih p.2]

/-- The chunk found so far only stands when no chunk is left. -/
theorem lastFrom_eq (found : Option Chunk) (cursor : ChunkCursor) :
    (lastFrom found cursor).1 = cursor.collect.getLast?.or found ∧
      (lastFrom found cursor).2.collect = [] := by
  fun_induction lastFrom found cursor with
  | case1 found cursor hnone =>
    rw [collect_of_next?_eq_none hnone]
    exact ⟨rfl, rfl⟩
  | case2 found cursor chunk cursor' hsome _ ih =>
    rw [collect_of_next?_eq_some hsome, List.getLast?_cons, Option.some_or]
    refine ⟨ih.1.trans ?_, ih.2⟩
    cases cursor'.collect.getLast? <;> rfl

theorem countFrom_eq (n : Nat) (cursor : ChunkCursor) :
    (countFrom n cursor).1 = n + cursor.collect.length ∧
      (countFrom n cursor).2.collect = [] := by
  fun_induction countFrom n cursor with
  | case1 n cursor hnone =>
    rw [collect_of_next?_eq_none hnone]
    exact ⟨rfl, rfl⟩
  | case2 n cursor chunk cursor' hsome _ ih =>
    rw [collect_of_next?_eq_some hsome, List.length_cons]
    exact ⟨ih.1.trans (by omega), ih.2⟩

/-- One call is answered as by the list of the chunks that are left. -/
theorem ask_eq_askList (h : cursor.next ≤ cursor.count) (query : Query) :
    (cursor.ask query).1 = (askList cursor.collect query).1 ∧
      (cursor.ask query).2.collect = (askList cursor.collect query).2 := by
  have hlength := length_collect h
  cases query with
  | next =>
    cases hnext : cursor.next? with
    | none => simp [ask, askList, hnext, collect_of_next?_eq_none hnext]
    | some p => simp [ask, askList, hnext, collect_of_next?_eq_some hnext]
  | nth n =>
    obtain ⟨hchunk, hleft⟩ := cursor.nth_eq n
    exact ⟨congrArg Answer.chunk hchunk, hleft⟩
  | last =>
    obtain ⟨hchunk, hleft⟩ := lastFrom_eq none cursor
    rw [Option.or_none] at hchunk
    exact ⟨congrArg Answer.chunk hchunk, hleft⟩
  | count =>
    obtain ⟨hcount, hleft⟩ := countFrom_eq 0 cursor
    rw [Nat.zero_add] at hcount
    exact ⟨congrArg Answer.number hcount, hleft⟩
  | length => exact ⟨congrArg Answer.number hlength.symm, rfl⟩
  | bounds => exact ⟨congrArg (fun n => Answer.bounds n n) hlength.symm, rfl⟩

/-- A script of calls is answered as by the list of the chunks that are left. -/
theorem replay_eq_replay_askList (h : cursor.next ≤ cursor.count) (script : List Query) :
    (replay ask cursor script).1 = (replay askList cursor.collect script).1 ∧
      (replay ask cursor script).2.next ≤ (replay ask cursor script).2.count ∧
      (replay ask cursor script).2.collect = (replay askList cursor.collect script).2 := by
  apply replay_simulates (R := fun (cursor : ChunkCursor) left =>
    cursor.next ≤ cursor.count ∧ cursor.collect = left)
  · rintro cursor left query ⟨hle, rfl⟩
    obtain ⟨hanswer, hleft⟩ := ask_eq_askList hle query
    exact ⟨hanswer, next_le_count_ask hle query, hleft⟩
  · exact ⟨h, rfl⟩

/-- **Scripts.** A script of calls is answered as by the list of all chunks of the message. What is
left then is counted exactly, and once a chunk was not found, nothing is found any more. -/
theorem script_is_answered_by_list {id : MessageId} {payload : List UInt8} {limit : UInt64}
    {chunks : ChunkCursor} (hsplit : split id payload limit = .ok chunks) (script : List Query) :
    let answered := replay ask chunks script
    let expected := replay askList chunks.collect script
    chunks.collect = Message.chunkList ⟨id, payload, limit⟩ ∧
    answered.1 = expected.1 ∧
    answered.2.collect = expected.2 ∧
    answered.2.remaining = expected.2.length ∧
    answered.1.Pairwise fun earlier later =>
      earlier.2 = .chunk none → later.2 = exhausted later.1 := by
  intro answered expected
  let m : Message := ⟨id, payload, limit⟩
  obtain ⟨hanswers, hend, hleft⟩ := replay_eq_replay_askList (m.next_le_count hsplit) script
  refine ⟨m.collect_eq_chunkList hsplit, hanswers, hleft, ?_, ?_⟩
  · rw [← length_collect hend, hleft]
  · rw [hanswers]
    exact pairwise_replay_askList chunks.collect script

/-- Three chunks of eight octets: one is skipped and one taken, then the last one is, and after that
there is none. -/
theorem three_chunks_are_asked_for :
    let id := MessageId.ofNat 7
    let payload := List.replicate 21 (0x61 : UInt8)
    ∃ chunks, split id payload 20 = .ok chunks ∧
      (replay ask chunks [.length, .nth 1, .bounds, .last, .next, .nth 18446744073709551615,
        .length]).1.map Prod.snd =
        [.number 3, .chunk ((Message.mk id payload 20).chunk 1), .bounds 1 1,
          .chunk ((Message.mk id payload 20).chunk 2), .chunk none, .chunk none, .number 0] := by
  intro id payload
  have hsplit := Message.split_of_not_fits (m := ⟨id, payload, 20⟩) (by decide)
  rw [if_neg (by decide)] at hsplit
  obtain ⟨hlist, hanswers, -⟩ := script_is_answered_by_list hsplit
    [.length, .nth 1, .bounds, .last, .next, .nth 18446744073709551615, .length]
  refine ⟨_, hsplit, ?_⟩
  rw [hanswers, hlist]
  decide

end Gelf.ChunkCursor
