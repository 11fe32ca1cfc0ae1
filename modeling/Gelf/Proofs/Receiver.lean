import Gelf.Proofs.Chunk.Reassembly
import Gelf.Proofs.Encoder.RoundTrip
import Gelf.Receiver

/-!
# What a receiver gets

Datagrams of messages with distinct ids come in any order, and the receiver gets exactly the
payloads of the messages. The text of a record begins with a brace, so neither it nor its compressed
forms are taken for something else.
-/

namespace Gelf

open Message (IsChunked)

/-! ### Payloads -/

namespace Message

/-- A message that can be cut, with a payload that is not taken for a chunk. -/
structure IsSendable (m : Message) : Prop where
  split : ∃ chunks, Gelf.split m.id m.payload m.limit = .ok chunks
  plain : Datagram.isChunk m.payload = false

variable {m : Message}

theorem IsSendable.isChunked (h : m.IsSendable) (hfits : ¬m.Fits) : m.IsChunked := by
  obtain ⟨chunks, hsplit⟩ := h.split
  refine ⟨chunks, hsplit, ?_⟩
  rw [← Bool.not_eq_true, isUnchunked_iff_fits hsplit]
  exact hfits

theorem IsSendable.datagrams_of_fits (h : m.IsSendable) (hfits : m.Fits) :
    m.datagrams = [m.payload] := by
  obtain ⟨chunks, hsplit⟩ := h.split
  rw [datagrams_eq_layout hsplit, layout, if_pos hfits]

theorem IsSendable.not_fits_of_isChunk (h : m.IsSendable) {d : Datagram} (hd : d ∈ m.datagrams)
    (hchunk : d.isChunk = true) : ¬m.Fits := by
  intro hfits
  rw [h.datagrams_of_fits hfits, List.mem_singleton] at hd
  rw [hd, h.plain] at hchunk
  cases hchunk

theorem IsChunked.exists_mem_datagrams (h : m.IsChunked) : ∃ d, d ∈ m.datagrams :=
  ⟨m.chunkDatagram 0, h.mem_datagrams_iff.2 ⟨0, chunkCount_pos h.not_fits, rfl⟩⟩

def chunked (messages : List Message) : List Message := messages.filter fun m => ¬m.Fits

theorem mem_chunked {messages : List Message} {m : Message} :
    m ∈ chunked messages ↔ m ∈ messages ∧ ¬m.Fits := by
  rw [chunked, List.mem_filter, decide_eq_true_iff]

theorem filter_datagrams (h : m.IsSendable) :
    m.datagrams.filter (fun d => !d.isChunk) = if m.Fits then [m.payload] else [] := by
  by_cases hfits : m.Fits
  · rw [h.datagrams_of_fits hfits, if_pos hfits, List.filter_cons_of_pos (by rw [h.plain]; rfl),
      List.filter_nil]
  · have hchunked := h.isChunked hfits
    rw [if_neg hfits, List.filter_eq_nil_iff]
    intro d hd
    rw [(hchunked.isChunk_of_mem hd).1]
    decide

/-- The datagrams without a chunk header are the payloads of the messages that fit. -/
theorem filter_flatMap_datagrams {messages : List Message} (h : ∀ m ∈ messages, m.IsSendable) :
    (messages.flatMap datagrams).filter (fun d => !d.isChunk) =
      (messages.filter fun m => m.Fits).map payload := by
  induction messages with
  | nil => rfl
  | cons m messages ih =>
    rw [List.flatMap_cons, List.filter_append, filter_datagrams (h m List.mem_cons_self),
      ih fun m' hm => h m' (List.mem_cons_of_mem m hm), List.filter_cons]
    by_cases hfits : m.Fits
    · simp [hfits]
    · simp [hfits]

end Message

namespace Receiver

variable {messages : List Message} {ds : List Datagram}

/-- A chunk that came belongs to a message that was cut. -/
theorem exists_chunked_of_isChunk (h : ∀ m ∈ messages, m.IsSendable)
    (hds : ds.Perm (messages.flatMap Message.datagrams)) {d : Datagram} (hd : d ∈ ds)
    (hchunk : d.isChunk = true) :
    ∃ m ∈ Message.chunked messages, m.IsChunked ∧ d ∈ m.datagrams := by
  obtain ⟨m, hm, hd⟩ := List.mem_flatMap.1 (hds.mem_iff.1 hd)
  have hfits := (h m hm).not_fits_of_isChunk hd hchunk
  exact ⟨m, Message.mem_chunked.2 ⟨hm, hfits⟩, (h m hm).isChunked hfits, hd⟩

theorem isChunked_of_mem_chunked (h : ∀ m ∈ messages, m.IsSendable) {m : Message}
    (hm : m ∈ Message.chunked messages) : m.IsChunked := by
  obtain ⟨hm, hfits⟩ := Message.mem_chunked.1 hm
  exact (h m hm).isChunked hfits

theorem messageIds_perm (h : ∀ m ∈ messages, m.IsSendable)
    (hids : ((Message.chunked messages).map Message.id).Nodup)
    (hds : ds.Perm (messages.flatMap Message.datagrams)) :
    (messageIds ds).Perm ((Message.chunked messages).map fun m => m.id.octets) := by
  have hoctets : ((Message.chunked messages).map fun m => m.id.octets).Nodup := by
    have hmap := hids.map fun a b => MessageId.octets_inj.1
    rwa [List.map_map] at hmap
  apply (List.perm_ext_iff_of_nodup (nodup_eraseDups _) hoctets).2
  intro id
  rw [List.mem_eraseDups, List.mem_map, List.mem_map]
  constructor
  · rintro ⟨d, hd, rfl⟩
    obtain ⟨hmem, hchunk⟩ := List.mem_filter.1 hd
    obtain ⟨m, hm, hchunked, hd⟩ := exists_chunked_of_isChunk h hds hmem hchunk
    exact ⟨m, hm, (hchunked.isChunk_of_mem hd).2.symm⟩
  · rintro ⟨m, hm, rfl⟩
    have hchunked := isChunked_of_mem_chunked h hm
    obtain ⟨d, hd⟩ := hchunked.exists_mem_datagrams
    obtain ⟨hchunk, hid⟩ := hchunked.isChunk_of_mem hd
    have hsent := List.mem_flatMap.2 ⟨m, (Message.mem_chunked.1 hm).1, hd⟩
    exact ⟨d, List.mem_filter.2 ⟨hds.mem_iff.2 hsent, hchunk⟩, hid⟩

theorem assembled?_eq_some (h : ∀ m ∈ messages, m.IsSendable)
    (hids : ((Message.chunked messages).map Message.id).Nodup)
    (hds : ds.Perm (messages.flatMap Message.datagrams)) {m : Message}
    (hm : m ∈ Message.chunked messages) : assembled? ds m.id.octets = some m.payload := by
  have hchunked : ∀ m ∈ Message.chunked messages, m.IsChunked := by
    intro m hm
    exact isChunked_of_mem_chunked h hm
  have hfrom : ∀ d ∈ ds, d.isChunk = true → ∃ m ∈ Message.chunked messages, d ∈ m.datagrams := by
    intro d hd hchunk
    obtain ⟨m, hm, -, hd⟩ := exists_chunked_of_isChunk h hds hd hchunk
    exact ⟨m, hm, hd⟩
  have hmem {d : Datagram} : d ∈ Assembly.chunksOf m.id.octets ds ↔ d ∈ ds ∧ d ∈ m.datagrams :=
    Message.mem_chunksOf_iff hchunked hids hfrom hm
  have hown : ∀ d ∈ Assembly.chunksOf m.id.octets ds, d ∈ m.datagrams := by
    intro d hd
    exact (hmem.1 hd).2
  have hall : ∀ d ∈ m.datagrams, d ∈ Assembly.chunksOf m.id.octets ds := by
    intro d hd
    have hsent := List.mem_flatMap.2 ⟨m, (Message.mem_chunked.1 hm).1, hd⟩
    exact hmem.2 ⟨hds.mem_iff.2 hsent, hd⟩
  have hcomplete := ((hchunked m hm).isComplete_iff hown).2 hall
  rw [assembled?, if_pos hcomplete, (hchunked m hm).joined_eq hown hall]

/-- **Payloads.** The datagrams of messages with distinct ids give the payloads of the messages, in
whatever order they come. -/
theorem payloads_perm (h : ∀ m ∈ messages, m.IsSendable)
    (hids : ((Message.chunked messages).map Message.id).Nodup)
    (hds : ds.Perm (messages.flatMap Message.datagrams)) :
    (payloads ds).Perm (messages.map Message.payload) := by
  -- Payloads that fit are datagrams themselves. The others are put together by their ids.
  have hwhole : (ds.filter fun d => !d.isChunk).Perm
      ((messages.filter fun m => m.Fits).map Message.payload) := by
    rw [← Message.filter_flatMap_datagrams h]
    exact hds.filter _
  have hjoined : ((messageIds ds).filterMap (assembled? ds)).Perm
      ((Message.chunked messages).map Message.payload) := by
    apply ((messageIds_perm h hids hds).filterMap _).trans
    rw [List.filterMap_map, ← List.filterMap_eq_map]
    apply List.Perm.of_eq
    apply List.filterMap_congr
    intro m hm
    exact assembled?_eq_some h hids hds hm
  have hparts : (messages.filter (fun m => m.Fits) ++ Message.chunked messages).Perm messages := by
    have hsplit := List.filter_append_perm (fun m : Message => decide m.Fits) messages
    simpa [Message.chunked] using hsplit
  rw [payloads]
  apply (hwhole.append hjoined).trans
  rw [← List.map_append]
  exact hparts.map _

/-! ### Records -/

theorem exists_bytes_eq (r : Record) : ∃ s, r.bytes = 0x7b :: s := by
  rw [Record.bytes, Record.text, Json.Value.text, Json.utf8_ofList, Json.chars_object,
    Json.octets_cons_of_le _ (by decide)]
  exact ⟨_, rfl⟩

section Marks

variable {codec : Codec} {c : Compression} {s bytes : List UInt8}

/-- Data that begins with a brace is told from both containers. -/
theorem compressionOf_of_compress (hmarks : codec.Marks)
    (h : codec.compress c (0x7b :: s) = .ok bytes) : compressionOf bytes = c := by
  rcases hmarks.bytes_eq h with ⟨rfl, rfl⟩ | ⟨rfl, rest, rfl⟩ | ⟨rfl, rest, rfl⟩
  · rfl
  · rfl
  · rfl

/-- A compressed record is never taken for a chunk. -/
theorem isChunk_of_compress (hmarks : codec.Marks)
    (h : codec.compress c (0x7b :: s) = .ok bytes) : Datagram.isChunk bytes = false := by
  rcases hmarks.bytes_eq h with ⟨rfl, rfl⟩ | ⟨rfl, rest, rfl⟩ | ⟨rfl, rest, rfl⟩
  · rfl
  · rfl
  · rfl

theorem record?_of_compress (hmarks : codec.Marks) (hinverts : codec.Inverts) {r : Record}
    (h : codec.compress c r.bytes = .ok bytes) :
    record? codec bytes = (Record.read r.bytes).toOption := by
  obtain ⟨s, hs⟩ := exists_bytes_eq r
  have hcompression : compressionOf bytes = c := compressionOf_of_compress hmarks (hs ▸ h)
  rw [record?, hcompression, hinverts.expand?_eq_some h, Option.bind_some]

end Marks

end Receiver

end Gelf
