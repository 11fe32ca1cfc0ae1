import Gelf.Proofs.Receiver
import Gelf.Shipper.Builder

/-!
# What a pipeline gives

An event with a blank message gives no payload, and every other event gives one, unless the codec
fails. The payload begins with a brace or as a container does, so it is never taken for a chunk, and
it is cut unless that takes too many chunks.
-/

namespace Gelf.Pipeline

variable {pipeline : Pipeline} {id : MessageId} {event : Event} {payload : List UInt8}

theorem payload_of_blank (h : Text.blank event.shortMessage = true) :
    pipeline.payload event = .error (.validation "short_message is empty") := by
  rw [Pipeline.payload, Encoder.encode_eq, Encoder.record, if_pos h]
  rfl

theorem chunks_of_blank (h : Text.blank event.shortMessage = true) :
    pipeline.chunks id event = .error (.validation "short_message is empty") := by
  rw [Pipeline.chunks, payload_of_blank h]

theorem payload_of_encode {json : List UInt8} (h : pipeline.encoder.encode event = .ok json) :
    pipeline.payload event = pipeline.codec.compress pipeline.compression json := by
  rw [Pipeline.payload, h]

theorem exists_record_of_payload (h : pipeline.payload event = .ok payload) :
    ∃ r, pipeline.encoder.record event = .ok r ∧
      pipeline.codec.compress pipeline.compression r.bytes = .ok payload := by
  cases hrecord : pipeline.encoder.record event with
  | error fault =>
    rw [Pipeline.payload, Encoder.encode_eq, hrecord] at h
    cases h
  | ok r =>
    rw [Pipeline.payload, Encoder.encode_eq, hrecord] at h
    exact ⟨r, rfl, h⟩

theorem exists_payload_eq (pipeline : Pipeline) (h : ¬ Text.blank event.shortMessage = true) :
    ∃ s, pipeline.payload event =
      pipeline.codec.compress pipeline.compression (0x7b :: s) := by
  obtain ⟨r, hrecord⟩ := @Encoder.exists_record_of_not_blank pipeline.encoder event h
  obtain ⟨s, hs⟩ := Receiver.exists_bytes_eq r
  refine ⟨s, ?_⟩
  rw [← hs]
  apply payload_of_encode
  rw [Encoder.encode_eq, hrecord]
  rfl

theorem exists_compress_eq_ok (h : pipeline.payload event = .ok payload) :
    ∃ s, pipeline.codec.compress pipeline.compression (0x7b :: s) = .ok payload := by
  obtain ⟨r, -, hcompress⟩ := exists_record_of_payload h
  obtain ⟨s, hs⟩ := Receiver.exists_bytes_eq r
  exact ⟨s, hs ▸ hcompress⟩

theorem isChunk_payload (hmarks : pipeline.codec.Marks)
    (h : pipeline.payload event = .ok payload) : Datagram.isChunk payload = false := by
  obtain ⟨s, hs⟩ := exists_compress_eq_ok h
  exact Receiver.isChunk_of_compress hmarks hs

theorem payload_ne_nil (hmarks : pipeline.codec.Marks)
    (h : pipeline.payload event = .ok payload) : payload ≠ [] := by
  obtain ⟨s, hs⟩ := exists_compress_eq_ok h
  exact hmarks.ne_nil (List.cons_ne_nil _ _) hs

/-- Nothing is cut because the event is blank, because the codec fails, or because the payload is
too long. -/
theorem chunks_eq_error {fault : Fault} (h : pipeline.chunks id event = .error fault) :
    (Text.blank event.shortMessage = true ∧ fault = .validation "short_message is empty") ∨
      (∃ s e, pipeline.codec.compress pipeline.compression s = .error fault ∧
        fault = .encoding e) ∨
      ∃ payload, pipeline.payload event = .ok payload ∧
        fault = .messageTooLarge payload.length
          (chunksNeeded payload.length pipeline.maxChunkSize) := by
  by_cases hblank : Text.blank event.shortMessage = true
  · rw [chunks_of_blank hblank] at h
    exact .inl ⟨hblank, (Except.error.inj h).symm⟩
  · obtain ⟨s, hs⟩ := exists_payload_eq pipeline hblank
    rw [Pipeline.chunks] at h
    cases hpayload : pipeline.payload event with
    | error fault' =>
      rw [hpayload] at h
      obtain rfl : fault' = fault := Except.error.inj h
      have hcompress := hs.symm.trans hpayload
      obtain ⟨e, he⟩ := Codec.exists_of_compress_eq_error hcompress
      exact .inr (.inl ⟨_, e, hcompress, he⟩)
    | ok payload =>
      rw [hpayload] at h
      refine .inr (.inr ⟨payload, rfl, ?_⟩)
      dsimp only [split] at h
      split at h
      · cases h
      · split at h
        · exact (Except.error.inj h).symm
        · cases h

theorem exists_split_of_chunks {chunks : ChunkCursor}
    (h : pipeline.chunks id event = .ok chunks) :
    ∃ payload, pipeline.payload event = .ok payload ∧
      split id payload pipeline.maxChunkSize = .ok chunks := by
  rw [Pipeline.chunks] at h
  cases hpayload : pipeline.payload event with
  | error fault =>
    rw [hpayload] at h
    cases h
  | ok payload =>
    rw [hpayload] at h
    exact ⟨payload, rfl, h⟩

end Gelf.Pipeline
