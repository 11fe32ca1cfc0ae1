import Gelf.Proofs.Chunk.Cutting
import Gelf.Proofs.Shipper.Budget

/-!
# What comes of an event

A blank message is found invalid, and a payload above a threshold is too large: 128 chunks full of
what the limit leaves beside the header. In both cases no transport is called. Any other payload is
cut, and its event comes to what the transport answers. Nothing ever goes wrong in encoding.
-/

namespace Gelf

namespace Pipeline

variable {pipeline : Pipeline} {event : Event} {payload : List UInt8}

theorem chunks_of_lt (id : MessageId) (hpayload : pipeline.payload event = .ok payload)
    (h : maxChunks * (pipeline.maxChunkSize.toNat - chunkHeaderSize) < payload.length) :
    pipeline.chunks id event = .error
      (.messageTooLarge payload.length
        (payload.length ⌈/⌉ (pipeline.maxChunkSize.toNat - chunkHeaderSize))) := by
  let m : Message := ⟨id, payload, pipeline.maxChunkSize⟩
  have hsplit := m.split_of_lt pipeline.hasRoom h
  rw [chunks_of_payload id hpayload, ← Message.usableSize_of_room pipeline.hasRoom,
    ← chunksNeeded_eq_ceilDiv]
  exact hsplit

theorem exists_chunks_of_not_lt (id : MessageId) (hpayload : pipeline.payload event = .ok payload)
    (h : ¬ maxChunks * (pipeline.maxChunkSize.toNat - chunkHeaderSize) < payload.length) :
    ∃ chunks, split id payload pipeline.maxChunkSize = .ok chunks ∧
      pipeline.chunks id event = .ok chunks := by
  let m : Message := ⟨id, payload, pipeline.maxChunkSize⟩
  obtain ⟨chunks, hsplit⟩ := m.exists_split_of_not_lt pipeline.hasRoom h
  exact ⟨chunks, hsplit, (chunks_of_payload id hpayload).trans hsplit⟩

end Pipeline

namespace Shipper

open Delivery (Network Target)

variable {ids : IdSource} {hostname : Hostname} {codec : Codec} {limit : UInt64}
  {start shipper : Shipper} {event : Event}

/-- Once an event is cut, only sending can fail. -/
theorem exists_error_of_attempt {net : Network} {chunks : ChunkCursor} {fault : Fault}
    (hchunks : shipper.pipeline.chunks (ids shipper.issued) event = .ok chunks)
    (h : (shipper.attempt net ids event).1 = .error fault) : ∃ e, fault = .transport e := by
  rw [attempt, attemptBy_of_ok hchunks] at h
  exact Transport.exists_error_of_towards h

/-- What comes of an event with a payload, under a limit that leaves `room` octets beside the header
of a chunk. Where no transport is called, the answer is the same for all of them. -/
structure SizeDecides (net : Network) (ids : IdSource) (shipper : Shipper) (event : Event)
    (limit : UInt64) (payload : List UInt8) : Prop where
  tooLarge_iff : (∃ size chunks, (shipper.attempt net ids event).1 =
    .error (.messageTooLarge size chunks)) ↔ 128 * (limit.toNat - 12) < payload.length
  refused : 128 * (limit.toNat - 12) < payload.length → ∀ transport,
    shipper.attemptBy transport ids event =
      (.error (.messageTooLarge payload.length (payload.length ⌈/⌉ (limit.toNat - 12))),
        { shipper with issued := shipper.issued + 1 })
  sent : payload.length ≤ 128 * (limit.toNat - 12) →
    ∃ chunks, split (ids shipper.issued) payload limit = .ok chunks ∧
      ∀ transport, shipper.attemptBy transport ids event =
        Shipper.sendBy transport { shipper with issued := shipper.issued + 1 } chunks

theorem sizeDecides (net : Network) (ids : IdSource) {payload : List UInt8}
    (hpayload : shipper.pipeline.payload event = .ok payload) :
    shipper.SizeDecides net ids event shipper.pipeline.maxChunkSize payload := by
  by_cases hlarge : maxChunks * (shipper.pipeline.maxChunkSize.toNat - chunkHeaderSize) <
    payload.length
  · have hchunks := Pipeline.chunks_of_lt (ids shipper.issued) hpayload hlarge
    have hrefused := attemptBy_of_error hchunks
    have hresult := congrArg Prod.fst (hrefused (.towards net shipper.target))
    exact ⟨iff_of_true ⟨_, _, hresult⟩ hlarge, fun _ => hrefused,
      fun hsmall => absurd hlarge (Nat.not_lt.2 hsmall)⟩
  · obtain ⟨chunks, hsplit, hchunks⟩ :=
      Pipeline.exists_chunks_of_not_lt (ids shipper.issued) hpayload hlarge
    refine ⟨iff_of_false ?_ hlarge, fun h => absurd h hlarge,
      fun _ => ⟨chunks, hsplit, attemptBy_of_ok hchunks⟩⟩
    rintro ⟨size, count, h⟩
    obtain ⟨e, he⟩ := exists_error_of_attempt hchunks h
    cases he

theorem attemptBy_of_blank (h : Text.blank event.shortMessage = true) (transport : Transport) :
    shipper.attemptBy transport ids event =
      (.error (.validation "short_message is empty"),
        { shipper with issued := shipper.issued + 1 }) :=
  attemptBy_of_error (Pipeline.chunks_of_blank h) transport

/-- Faults of the pipeline are those of blank messages and of large payloads, and all others are of
sending. -/
theorem cases_of_attempt_eq_error (hnever : shipper.pipeline.codec.NeverFails) {net : Network}
    {fault : Fault} (h : (shipper.attempt net ids event).1 = .error fault) :
    (Text.blank event.shortMessage = true ∧ fault = .validation "short_message is empty") ∨
      (∃ size chunks, fault = .messageTooLarge size chunks) ∨ ∃ e, fault = .transport e := by
  cases hchunks : shipper.pipeline.chunks (ids shipper.issued) event with
  | error fault' =>
    rw [attempt, attemptBy_of_error hchunks] at h
    obtain rfl : fault' = fault := Except.error.inj h
    rcases Pipeline.chunks_eq_error hchunks with
      hblank | ⟨s, -, hcompress, -⟩ | ⟨payload, -, hlarge⟩
    · exact .inl hblank
    · exact absurd hcompress (hnever.compress_ne_error fault')
    · exact .inr (.inl ⟨_, _, hlarge⟩)
  | ok chunks => exact .inr (.inr (exists_error_of_attempt hchunks h))

/-- **What comes of an event.** For a shipper that was built with a codec that never fails, after
anything that it served: a message is found invalid exactly when it is blank. Any other is encoded
and compressed, and the size of its payload decides whether it is too large or comes to what the
transport answers to its chunks. Encoding is never at fault. -/
theorem built_shipper_classifies_events (hnever : codec.NeverFails)
    {outcomes : List (Except Fault Nat)} (hbuilt : IsBuilt hostname codec limit start)
    (hserves : start.Serves ids outcomes shipper)
    (net : Network) (event : Event) :
    13 ≤ limit.toNat ∧
    ((∃ reason, (shipper.attempt net ids event).1 = .error (.validation reason)) ↔
      ∀ c ∈ event.shortMessage.toList, Text.isBlank c = true) ∧
    ((∀ c ∈ event.shortMessage.toList, Text.isBlank c = true) → ∃ reason, ∀ transport,
      shipper.attemptBy transport ids event =
        (.error (.validation reason), { shipper with issued := shipper.issued + 1 })) ∧
    ((∃ c ∈ event.shortMessage.toList, Text.isBlank c = false) →
      ∃ json payload, start.pipeline.encoder.encode event = .ok json ∧
        codec.compress start.pipeline.compression json = .ok payload ∧
        shipper.SizeDecides net ids event limit payload) ∧
    ∀ e, (shipper.attempt net ids event).1 ≠ .error (.encoding e) := by
  have hsame : shipper.pipeline = start.pipeline := congrArg Prod.fst hserves.setup_eq
  have hlimit : shipper.pipeline.maxChunkSize = limit := by rw [hsame, hbuilt.maxChunkSize_eq]
  obtain rfl : shipper.pipeline.codec = codec := by rw [hsame, hbuilt.codec_eq]
  rw [← Text.blank_eq_true_iff]
  refine ⟨?_, ⟨?_, ?_⟩, ?_, ?_, ?_⟩
  · rw [← hlimit]
    exact shipper.pipeline.hasRoom
  · rintro ⟨reason, hfault⟩
    rcases cases_of_attempt_eq_error hnever hfault with
      ⟨hblank, -⟩ | ⟨size, chunks, hlarge⟩ | ⟨e, hsending⟩
    · exact hblank
    · cases hlarge
    · cases hsending
  · intro hblank
    exact ⟨_, congrArg Prod.fst (attemptBy_of_blank hblank (.towards net shipper.target))⟩
  · intro hblank
    exact ⟨_, attemptBy_of_blank hblank⟩
  · rintro ⟨c, hc, hvisible⟩
    have hblank : ¬ Text.blank event.shortMessage = true := by
      intro hblank
      rw [Text.blank_eq_true_iff.1 hblank c hc] at hvisible
      cases hvisible
    obtain ⟨json, hjson⟩ := start.pipeline.encoder.exists_encode_of_not_blank hblank
    obtain ⟨payload, hcompress⟩ := hnever.exists_compress_eq_ok start.pipeline.compression json
    have hpayload : shipper.pipeline.payload event = .ok payload := by
      rw [← hcompress, ← hsame]
      exact Pipeline.payload_of_encode (hsame.symm ▸ hjson)
    have hsize := sizeDecides net ids hpayload
    rw [hlimit] at hsize
    exact ⟨json, payload, hjson, hcompress, hsize⟩
  · intro e hfault
    rcases cases_of_attempt_eq_error hnever hfault with
      ⟨-, hinvalid⟩ | ⟨size, chunks, hlarge⟩ | ⟨e', hsending⟩
    · cases hinvalid
    · cases hlarge
    · cases hsending

/-- Under a limit of 13 a chunk carries one octet, so a payload takes as many chunks as octets. -/
theorem payload_of_167_octets_is_too_large :
    let builder : Builder := { sourceHost := some "relay", maxChunkSize := 13 }
    let event := Event.new 1.5 (String.ofList (List.replicate 100 'a'))
    ∃ start, builder.direct (.name "") ⟨"127.0.0.1", 12201⟩ .own = .ok start ∧
      start.Serves MessageId.ofNat [] start ∧
      (∃ c ∈ event.shortMessage.toList, Text.isBlank c = false) ∧
      start.attempt .lossless MessageId.ofNat event =
        (.error (.messageTooLarge 167 167), { start with issued := 1 }) := by
  intro builder event
  cases hbuilt : builder.direct (.name "") ⟨"127.0.0.1", 12201⟩ .own with
  | error e => cases hbuilt
  | ok start =>
    have hserves : start.Serves MessageId.ofNat [] start := .refl
    have hvisible : ∃ c ∈ event.shortMessage.toList, Text.isBlank c = false :=
      ⟨'a', by decide, by decide⟩
    obtain ⟨-, -, -, hsize, -⟩ :=
      built_shipper_classifies_events Codec.own_neverFails (.direct hbuilt) hserves .lossless event
    obtain ⟨json, payload, hjson, hcompress, hdecides⟩ := hsize hvisible
    cases hbuilt
    obtain rfl : json = payload := Except.ok.inj hcompress
    have hlength : (Encoder.encode ⟨"relay", .empty⟩ event).map List.length = .ok 167 := by
      decide +kernel
    rw [show Encoder.encode ⟨"relay", .empty⟩ event = .ok json from hjson] at hlength
    have hpayload : json.length = 167 := Except.ok.inj hlength
    have hcount : 167 ⌈/⌉ (builder.maxChunkSize.toNat - 12) = 167 := by decide
    have hlarge : 128 * (builder.maxChunkSize.toNat - 12) < json.length := by
      rw [hpayload]
      decide
    have hrefused := hdecides.refused hlarge (.towards .lossless ⟨"127.0.0.1", 12201⟩)
    rw [hpayload, hcount] at hrefused
    exact ⟨_, rfl, hserves, hvisible, hrefused⟩

end Shipper

end Gelf
