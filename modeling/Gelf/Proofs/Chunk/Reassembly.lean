import Mathlib.Data.List.Sort
import Gelf.Proofs.Chunk.Layout

/-!
# Reassembly

Chunks may come in any order, interleaved with those of other messages, and more than once. Grouped
by their ids, the chunks of a message are complete exactly when each of its datagrams has come, and
the parts in order of their indices are then the payload.
-/

namespace Gelf

/-! ### Lists with each element once -/

theorem nodup_eraseDups {α : Type} [BEq α] [LawfulBEq α] : ∀ l : List α, l.eraseDups.Nodup
  | [] => List.nodup_nil
  | b :: l => by
    rw [List.eraseDups_cons, List.nodup_cons, List.mem_eraseDups]
    exact ⟨by simp, nodup_eraseDups _⟩
termination_by l => l.length
decreasing_by exact Nat.lt_succ_of_le (List.length_filter_le _ l)

theorem MessageId.octets_inj {a b : MessageId} : a.octets = b.octets ↔ a = b := by
  cases a
  cases b
  simp

namespace Message

/-- A message that travels in chunks. -/
def IsChunked (m : Message) : Prop :=
  ∃ chunks, split m.id m.payload m.limit = .ok chunks ∧ chunks.isUnchunked = false

namespace IsChunked

variable {m : Message}

theorem not_fits (h : m.IsChunked) : ¬ m.Fits := by
  obtain ⟨chunks, hsplit, hchunked⟩ := h
  intro hfits
  rw [(isUnchunked_iff_fits hsplit).2 hfits] at hchunked
  cases hchunked

theorem chunkCount_le (h : m.IsChunked) : m.chunkCount ≤ maxChunks := by
  have hfits := h.not_fits
  obtain ⟨chunks, hsplit, -⟩ := h
  exact chunkCount_le_of_split hsplit hfits

theorem of_chunkCount_le (h : ¬ m.Fits) (hcount : m.chunkCount ≤ maxChunks) : m.IsChunked :=
  ⟨_, (split_of_not_fits h).trans (if_neg (Nat.not_lt.2 hcount)), rfl⟩

theorem datagrams_eq (h : m.IsChunked) :
    m.datagrams = (List.range m.chunkCount).map m.chunkDatagram := by
  have hfits := h.not_fits
  obtain ⟨chunks, hsplit, -⟩ := h
  rw [datagrams_eq_layout hsplit, layout, if_neg hfits]

theorem length_datagrams (h : m.IsChunked) : m.datagrams.length = m.chunkCount := by
  rw [h.datagrams_eq, List.length_map, List.length_range]

theorem mem_datagrams_iff (h : m.IsChunked) {d : Datagram} :
    d ∈ m.datagrams ↔ ∃ i < m.chunkCount, m.chunkDatagram i = d := by
  rw [h.datagrams_eq, List.mem_map]
  simp only [List.mem_range]

theorem toNat_ofNat (h : m.IsChunked) {i : Nat} (hi : i ≤ m.chunkCount) :
    (UInt8.ofNat i).toNat = i :=
  toNat_ofNat_of_le_maxChunks (Nat.le_trans hi h.chunkCount_le)

theorem isChunk_of_mem (h : m.IsChunked) {d : Datagram} (hd : d ∈ m.datagrams) :
    d.isChunk = true ∧ d.messageId = m.id.octets := by
  obtain ⟨i, -, rfl⟩ := h.mem_datagrams_iff.1 hd
  exact ⟨isChunk_chunkDatagram m i, messageId_chunkDatagram m i⟩

/-- A datagram of a message is known by its index. -/
theorem eq_chunkDatagram_of_index (h : m.IsChunked) {d : Datagram} (hd : d ∈ m.datagrams) {i : Nat}
    (hi : i < m.chunkCount) (hindex : d.index = UInt8.ofNat i) : d = m.chunkDatagram i := by
  obtain ⟨j, hj, rfl⟩ := h.mem_datagrams_iff.1 hd
  rw [index_chunkDatagram] at hindex
  have hij := congrArg UInt8.toNat hindex
  rw [h.toNat_ofNat hj.le, h.toNat_ofNat hi.le] at hij
  rw [hij]

/-! ### The indices that came -/

theorem pairwise_lt_indices (h : m.IsChunked) :
    ((List.range m.chunkCount).map UInt8.ofNat).Pairwise (· < ·) := by
  apply List.pairwise_map.2
  apply List.pairwise_lt_range.imp_of_mem
  intro i j hi hj hij
  rw [UInt8.lt_iff_toNat_lt, h.toNat_ofNat (List.mem_range.1 hi).le,
    h.toNat_ofNat (List.mem_range.1 hj).le]
  exact hij

theorem nodup_indices (h : m.IsChunked) : ((List.range m.chunkCount).map UInt8.ofNat).Nodup :=
  h.pairwise_lt_indices.imp fun hlt => UInt8.ne_of_lt hlt

variable {ds : List Datagram}

theorem nodup_indices_of (ds : List Datagram) : (Assembly.indices ds).Nodup :=
  nodup_eraseDups _

theorem ofNat_mem_indices_iff (h : m.IsChunked) (hds : ∀ d ∈ ds, d ∈ m.datagrams) {i : Nat}
    (hi : i < m.chunkCount) : UInt8.ofNat i ∈ Assembly.indices ds ↔ m.chunkDatagram i ∈ ds := by
  rw [Assembly.indices, List.mem_eraseDups, List.mem_map]
  constructor
  · rintro ⟨d, hd, hindex⟩
    rwa [h.eq_chunkDatagram_of_index (hds d hd) hi hindex] at hd
  · intro hmem
    exact ⟨m.chunkDatagram i, hmem, index_chunkDatagram m i⟩

theorem indices_subset (h : m.IsChunked) (hds : ∀ d ∈ ds, d ∈ m.datagrams) :
    Assembly.indices ds ⊆ (List.range m.chunkCount).map UInt8.ofNat := by
  intro x hx
  rw [Assembly.indices, List.mem_eraseDups, List.mem_map] at hx
  obtain ⟨d, hd, rfl⟩ := hx
  obtain ⟨i, hi, rfl⟩ := h.mem_datagrams_iff.1 (hds d hd)
  exact List.mem_map.2 ⟨i, List.mem_range.2 hi, (index_chunkDatagram m i).symm⟩

theorem indices_perm_iff (h : m.IsChunked) (hds : ∀ d ∈ ds, d ∈ m.datagrams) :
    (Assembly.indices ds).Perm ((List.range m.chunkCount).map UInt8.ofNat) ↔
      ∀ d ∈ m.datagrams, d ∈ ds := by
  rw [List.perm_ext_iff_of_nodup (nodup_indices_of ds) h.nodup_indices]
  constructor
  · intro hsame d hd
    obtain ⟨i, hi, rfl⟩ := h.mem_datagrams_iff.1 hd
    apply (h.ofNat_mem_indices_iff hds hi).1
    apply (hsame _).2
    exact List.mem_map_of_mem (List.mem_range.2 hi)
  · intro hall x
    constructor
    · intro hx
      exact h.indices_subset hds hx
    · intro hx
      obtain ⟨i, hi, rfl⟩ := List.mem_map.1 hx
      have hi := List.mem_range.1 hi
      exact (h.ofNat_mem_indices_iff hds hi).2 (hall _ (h.mem_datagrams_iff.2 ⟨i, hi, rfl⟩))

theorem length_indices_eq_iff (h : m.IsChunked) (hds : ∀ d ∈ ds, d ∈ m.datagrams) :
    (Assembly.indices ds).length = m.chunkCount ↔ ∀ d ∈ m.datagrams, d ∈ ds := by
  rw [← h.indices_perm_iff hds]
  constructor
  · intro hlength
    have hsub := List.subperm_of_subset (nodup_indices_of ds) (h.indices_subset hds)
    exact hsub.perm_of_length_le (by rw [List.length_map, List.length_range, hlength])
  · intro hperm
    rw [hperm.length_eq, List.length_map, List.length_range]

/-! ### Complete messages -/

theorem count_eq (h : m.IsChunked) {d : Datagram} (hd : d ∈ m.datagrams) :
    d.count.toNat = m.chunkCount := by
  obtain ⟨i, -, rfl⟩ := h.mem_datagrams_iff.1 hd
  rw [count_chunkDatagram, h.toNat_ofNat le_rfl]

theorem isComplete_iff (h : m.IsChunked) (hds : ∀ d ∈ ds, d ∈ m.datagrams) :
    Assembly.isComplete ds = true ↔ ∀ d ∈ m.datagrams, d ∈ ds := by
  cases ds with
  | nil =>
    have hfirst : m.chunkDatagram 0 ∈ m.datagrams :=
      h.mem_datagrams_iff.2 ⟨0, chunkCount_pos h.not_fits, rfl⟩
    exact iff_of_false Bool.false_ne_true fun hall => List.not_mem_nil (hall _ hfirst)
  | cons d rest =>
    rw [← h.length_indices_eq_iff hds, Assembly.isComplete, decide_eq_true_iff,
      h.count_eq (hds d List.mem_cons_self)]

theorem mergeSort_indices (h : m.IsChunked) (hds : ∀ d ∈ ds, d ∈ m.datagrams)
    (hall : ∀ d ∈ m.datagrams, d ∈ ds) :
    ((Assembly.indices ds).mergeSort fun i j => i ≤ j) =
      (List.range m.chunkCount).map UInt8.ofNat := by
  have hperm := (List.mergeSort_perm (Assembly.indices ds) fun i j => i ≤ j).trans
    ((h.indices_perm_iff hds).2 hall)
  refine hperm.eq_of_pairwise' ?_ (h.pairwise_lt_indices.imp UInt8.le_of_lt)
  exact List.pairwise_mergeSort' (· ≤ ·) (Assembly.indices ds)

/-- The part that stands at an index is the piece of that chunk, however often it came. -/
theorem part_find? (h : m.IsChunked) (hds : ∀ d ∈ ds, d ∈ m.datagrams)
    (hall : ∀ d ∈ m.datagrams, d ∈ ds) {i : Nat} (hi : i < m.chunkCount) :
    ((ds.find? fun d => d.index = UInt8.ofNat i).map Datagram.part).getD [] = m.piece i := by
  cases hfind : ds.find? fun d => d.index = UInt8.ofNat i with
  | none =>
    have hmem := hall _ (h.mem_datagrams_iff.2 ⟨i, hi, rfl⟩)
    have hnot := List.find?_eq_none.1 hfind _ hmem
    simp at hnot
  | some d =>
    have hindex : d.index = UInt8.ofNat i := by simpa using List.find?_some hfind
    have hd := hds d (List.mem_of_find?_eq_some hfind)
    rw [h.eq_chunkDatagram_of_index hd hi hindex]
    exact part_chunkDatagram m i

theorem joined_eq (h : m.IsChunked) (hds : ∀ d ∈ ds, d ∈ m.datagrams)
    (hall : ∀ d ∈ m.datagrams, d ∈ ds) : Assembly.joined ds = m.payload := by
  rw [Assembly.joined, h.mergeSort_indices hds hall, List.flatMap_map, ← flatMap_piece m]
  apply List.flatMap_congr
  intro i hi
  exact h.part_find? hds hall (List.mem_range.1 hi)

end IsChunked

/-! ### Several messages at once -/

/-- Messages with distinct ids share no chunk: the chunks that are grouped under the id of a message
are those of its datagrams that came. -/
theorem mem_chunksOf_iff {messages : List Message} (hchunked : ∀ m ∈ messages, m.IsChunked)
    (hids : (messages.map Message.id).Nodup) {ds : List Datagram}
    (hds : ∀ d ∈ ds, d.isChunk = true → ∃ m ∈ messages, d ∈ m.datagrams) {m : Message}
    (hm : m ∈ messages) {d : Datagram} :
    d ∈ Assembly.chunksOf m.id.octets ds ↔ d ∈ ds ∧ d ∈ m.datagrams := by
  rw [Assembly.chunksOf, List.mem_filter, Bool.and_eq_true, decide_eq_true_iff]
  constructor
  · rintro ⟨hd, hchunk, hid⟩
    obtain ⟨m', hm', hd'⟩ := hds d hd hchunk
    rw [((hchunked m' hm').isChunk_of_mem hd').2, MessageId.octets_inj] at hid
    exact ⟨hd, List.inj_on_of_nodup_map hids hm' hm hid ▸ hd'⟩
  · rintro ⟨hd, hd'⟩
    exact ⟨hd, (hchunked m hm).isChunk_of_mem hd'⟩

/-- **Reassembly.** Take messages with distinct ids that travel in chunks, and any datagrams of
them, in any order and any number of times. All datagrams of a message are chunks that carry its id
and how many they are. Those that came are complete exactly when each of them came, and put together
they are then the payload. -/
theorem chunks_reassemble {messages : List Message} (hchunked : ∀ m ∈ messages, m.IsChunked)
    (hids : (messages.map Message.id).Nodup) {ds : List Datagram}
    (hds : ∀ d ∈ ds, ∃ m ∈ messages, d ∈ m.datagrams) {m : Message} (hm : m ∈ messages) :
    (∀ d ∈ m.datagrams, d.isChunk = true ∧ d.messageId = m.id.octets ∧
        d.count.toNat = m.datagrams.length) ∧
      (Assembly.isComplete (Assembly.chunksOf m.id.octets ds) = true ↔
        ∀ d ∈ m.datagrams, d ∈ ds) ∧
      ((∀ d ∈ m.datagrams, d ∈ ds) →
        Assembly.joined (Assembly.chunksOf m.id.octets ds) = m.payload) := by
  have hm' := hchunked m hm
  have hmem {d : Datagram} : d ∈ Assembly.chunksOf m.id.octets ds ↔ d ∈ ds ∧ d ∈ m.datagrams :=
    mem_chunksOf_iff hchunked hids (fun d hd _ => hds d hd) hm
  have hown : ∀ d ∈ Assembly.chunksOf m.id.octets ds, d ∈ m.datagrams := by
    intro d hd
    exact (hmem.1 hd).2
  have hcame : (∀ d ∈ m.datagrams, d ∈ Assembly.chunksOf m.id.octets ds) ↔
      ∀ d ∈ m.datagrams, d ∈ ds := by
    constructor
    · intro hall d hd
      exact (hmem.1 (hall d hd)).1
    · intro hall d hd
      exact hmem.2 ⟨hall d hd, hd⟩
  refine ⟨?_, ?_, ?_⟩
  · intro d hd
    have hcount := (hm'.count_eq hd).trans hm'.length_datagrams.symm
    obtain ⟨hchunk, hid⟩ := hm'.isChunk_of_mem hd
    exact ⟨hchunk, hid, hcount⟩
  · rw [hm'.isComplete_iff hown, hcame]
  · intro hall
    exact hm'.joined_eq hown (hcame.2 hall)

/-- Two messages that come interleaved, backwards and in part twice. -/
theorem interleaved_chunks_reassemble :
    let a : Message := ⟨.ofNat 1, [1, 2, 3], 1⟩
    let b : Message := ⟨.ofNat 2, [4, 5], 1⟩
    let ds := [b.chunkDatagram 1, a.chunkDatagram 2, a.chunkDatagram 1, a.chunkDatagram 2,
      a.chunkDatagram 0]
    Assembly.isComplete (Assembly.chunksOf a.id.octets ds) = true ∧
      Assembly.joined (Assembly.chunksOf a.id.octets ds) = [1, 2, 3] ∧
      Assembly.isComplete (Assembly.chunksOf b.id.octets ds) ≠ true := by
  intro a b ds
  have ha : a.IsChunked := .of_chunkCount_le (by decide) (by decide)
  have hb : b.IsChunked := .of_chunkCount_le (by decide) (by decide)
  have hchunked : ∀ m ∈ [a, b], m.IsChunked := by simp [ha, hb]
  have hds : ∀ d ∈ ds, ∃ m ∈ [a, b], d ∈ m.datagrams := by
    intro d hd
    have hsplit : ∀ d ∈ ds, d ∈ (List.range a.chunkCount).map a.chunkDatagram ∨
        d ∈ (List.range b.chunkCount).map b.chunkDatagram := by decide
    rw [← ha.datagrams_eq, ← hb.datagrams_eq] at hsplit
    rcases hsplit d hd with hd | hd
    · exact ⟨a, by simp, hd⟩
    · exact ⟨b, by simp, hd⟩
  have hall : ∀ d ∈ a.datagrams, d ∈ ds := by
    rw [ha.datagrams_eq]
    decide
  have ha' := chunks_reassemble hchunked (by decide) hds (m := a) (by simp)
  have hb' := chunks_reassemble hchunked (by decide) hds (m := b) (by simp)
  refine ⟨ha'.2.1.2 hall, ha'.2.2 hall, ?_⟩
  intro hcomplete
  have hnot : b.chunkDatagram 0 ∉ ds := by decide
  exact hnot (hb'.2.1.1 hcomplete _ (hb.mem_datagrams_iff.2 ⟨0, by decide, rfl⟩))

end Message

end Gelf
