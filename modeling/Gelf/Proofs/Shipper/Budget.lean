import Gelf.Proofs.Compression
import Gelf.Proofs.Shipper.Books
import Gelf.Proofs.Shipper.Carriage
import Gelf.Proofs.Shipper.Pipeline

/-!
# The budget of datagrams

Splitting alone does not keep to a limit that leaves no room beside the chunk header. A shipper is
only built with a limit that does, and it cuts nothing but payloads of its own pipeline. So whatever
its transport does, the transport is given datagrams that are neither empty nor longer than the
limit, never too many of them, and none that is taken for a chunk without being one.
-/

namespace Gelf

/-! ### The chunks of a message -/

namespace ChunkCursor

theorem isSome_header_of_mem_collect {cursor : ChunkCursor} {chunk : Chunk}
    (h : chunk ∈ cursor.collect) : chunk.header.isSome = cursor.id.isSome := by
  fun_induction collect cursor with
  | case1 cursor hnone => cases h
  | case2 cursor first cursor' hsome hgap ih =>
    obtain ⟨-, rfl, rfl⟩ := next?_eq_some_iff.1 hsome
    rcases List.mem_cons.1 h with rfl | hrest
    · cases hid : cursor.id <;> simp [chunkAt, hid]
    · exact ih hrest

/-- The chunks that are left can be sent under a limit, and a receiver tells those with a header
from the others. -/
structure KeepsBudget (limit : Nat) (cursor : ChunkCursor) : Prop where
  few : cursor.collect.length ≤ maxChunks
  nonempty : ∀ chunk ∈ cursor.collect, 1 ≤ chunk.datagram.length
  short : ∀ chunk ∈ cursor.collect, chunk.datagram.length ≤ limit
  marked : ∀ chunk ∈ cursor.collect, chunk.datagram.isChunk = true ↔ chunk.header.isSome = true

end ChunkCursor

namespace Message

variable {m : Message} {chunks : ChunkCursor}

/-- A datagram of a message that was cut is the payload, or the chunk of some index. -/
theorem datagram_cases (hsplit : split m.id m.payload m.limit = .ok chunks) {chunk : Chunk}
    (h : chunk ∈ chunks.collect) :
    (m.Fits ∧ chunk.header.isSome = false ∧ chunk.datagram = m.payload) ∨
      (¬ m.Fits ∧ chunk.header.isSome = true ∧
        ∃ i < m.chunkCount, chunk.datagram = m.chunkDatagram i) := by
  have hmem : chunk.datagram ∈ m.layout := by
    rw [← datagrams_eq_layout hsplit, datagrams, hsplit]
    exact List.mem_map_of_mem h
  have hheader := ChunkCursor.isSome_header_of_mem_collect h
  by_cases hfits : m.Fits
  · rw [layout, if_pos hfits] at hmem
    rw [chunks_of_split_of_fits hsplit hfits] at hheader
    exact .inl ⟨hfits, hheader, List.mem_singleton.1 hmem⟩
  · rw [layout, if_neg hfits] at hmem
    obtain ⟨i, hi, hdatagram⟩ := List.mem_map.1 hmem
    rw [chunks_of_split hsplit hfits] at hheader
    exact .inr ⟨hfits, hheader, i, List.mem_range.1 hi, hdatagram.symm⟩

theorem length_collect_le (hsplit : split m.id m.payload m.limit = .ok chunks) :
    chunks.collect.length ≤ maxChunks := by
  have hlength : chunks.collect.length = m.layout.length := by
    rw [← datagrams_eq_layout hsplit, datagrams, hsplit, List.length_map]
  rw [hlength, layout]
  by_cases hfits : m.Fits
  · rw [if_pos hfits]
    exact Nat.succ_le_of_lt (by decide)
  · rw [if_neg hfits, List.length_map, List.length_range]
    exact chunkCount_le_of_split hsplit hfits

theorem keepsBudget (hsplit : split m.id m.payload m.limit = .ok chunks)
    (hroom : chunkHeaderSize < m.limit.toNat) (hpayload : m.payload ≠ [])
    (hplain : Datagram.isChunk m.payload = false) : chunks.KeepsBudget m.limit.toNat := by
  refine ⟨length_collect_le hsplit, ?_, ?_, ?_⟩
  · intro chunk hchunk
    rcases datagram_cases hsplit hchunk with ⟨-, -, heq⟩ | ⟨-, -, i, hi, heq⟩
    · rw [heq]
      exact List.length_pos_iff.2 hpayload
    · have hpiece := length_piece_pos hi
      rw [heq, length_chunkDatagram]
      omega
  · intro chunk hchunk
    rcases datagram_cases hsplit hchunk with ⟨hfits, -, heq⟩ | ⟨-, -, i, -, heq⟩
    · rw [heq]
      exact hfits
    · rw [heq]
      exact length_chunkDatagram_le hroom i
  · intro chunk hchunk
    rcases datagram_cases hsplit hchunk with ⟨-, hheader, heq⟩ | ⟨-, hheader, i, -, heq⟩
    · rw [heq, hplain, hheader]
    · rw [heq, isChunk_chunkDatagram, hheader]

end Message

/-- What a pipeline cuts keeps to its limit, which leaves room beside the chunk header. -/
theorem Pipeline.keepsBudget_of_chunks {pipeline : Pipeline} {id : MessageId} {event : Event}
    {chunks : ChunkCursor} (hmarks : pipeline.codec.Marks)
    (h : pipeline.chunks id event = .ok chunks) :
    chunks.KeepsBudget pipeline.maxChunkSize.toNat := by
  obtain ⟨payload, hpayload, hsplit⟩ := exists_split_of_chunks h
  let m : Message := ⟨id, payload, pipeline.maxChunkSize⟩
  exact m.keepsBudget hsplit pipeline.hasRoom (payload_ne_nil hmarks hpayload)
    (isChunk_payload hmarks hpayload)

namespace Shipper

open Delivery (Attempt Network Target)

variable {ids : IdSource} {hostname : Hostname} {codec : Codec} {limit : UInt64}
  {start shipper : Shipper}

/-! ### Shippers that were built -/

/-- The shippers that can be built on a machine with a codec, each with the limit that was set for
its datagrams. -/
inductive IsBuilt (hostname : Hostname) (codec : Codec) : UInt64 → Shipper → Prop
  | direct {builder : Builder} {target : Target} {shipper : Shipper}
    (h : builder.direct hostname target codec = .ok shipper) :
    IsBuilt hostname codec builder.maxChunkSize shipper
  | queued {builder : Builder} {target : Target} {buffer : Nat} {shipper : Shipper}
    (h : builder.queued hostname target buffer codec = .ok shipper) :
    IsBuilt hostname codec builder.maxChunkSize shipper
  | ofConfig {config : Config} {shipper : Shipper}
    (h : Shipper.ofConfig config hostname codec = .ok shipper) :
    IsBuilt hostname codec config.maxChunkSize shipper

theorem IsBuilt.exists_build (h : IsBuilt hostname codec limit start) :
    ∃ builder : Builder, builder.maxChunkSize = limit ∧
      builder.build hostname codec = .ok start.pipeline ∧ start.wire = [] ∧ start.waiting = [] := by
  cases h with
  | @direct builder _ _ h =>
    obtain ⟨pipeline, hbuild, rfl⟩ := Builder.exists_of_direct h
    exact ⟨builder, rfl, hbuild, rfl, rfl⟩
  | @queued builder _ _ _ h =>
    obtain ⟨pipeline, hbuild, rfl⟩ := Builder.exists_of_queued h
    exact ⟨builder, rfl, hbuild, rfl, rfl⟩
  | @ofConfig config _ h =>
    obtain ⟨pipeline, hbuild, rfl⟩ := Builder.exists_of_direct h
    exact ⟨.ofConfig config, rfl, hbuild, rfl, rfl⟩

theorem IsBuilt.maxChunkSize_eq (h : IsBuilt hostname codec limit start) :
    start.pipeline.maxChunkSize = limit := by
  obtain ⟨builder, hlimit, hbuild, -⟩ := h.exists_build
  obtain ⟨-, -, -, -, -, hsize⟩ := Builder.exists_host_of_build hbuild
  exact hsize.trans hlimit

theorem IsBuilt.codec_eq (h : IsBuilt hostname codec limit start) :
    start.pipeline.codec = codec := by
  obtain ⟨builder, -, hbuild, -⟩ := h.exists_build
  obtain ⟨-, -, -, -, hcodec, -⟩ := Builder.exists_host_of_build hbuild
  exact hcodec

theorem IsBuilt.carries (h : IsBuilt hostname codec limit start) (P : Datagram → Prop) :
    start.Carries P := by
  obtain ⟨builder, -, -, hwire, hwaiting⟩ := h.exists_build
  constructor
  · rw [hwire]
    exact nofun
  · rw [hwaiting]
    exact nofun

/-! ### What a transport is given -/

/-- Any transport is called for the event at most once, and only with chunks of which `P` holds.
This is so when the event is attempted and when it is handled. -/
def HandsOnly (P : ChunkCursor → Prop) (ids : IdSource) (shipper : Shipper) (event : Event) :
    Prop :=
  let used := { shipper with issued := shipper.issued + 1 }
  (∃ fault, ∀ transport,
    shipper.attemptBy transport ids event = (.error fault, used) ∧
      shipper.shipBy transport ids event = used.account (.error fault)) ∨
  ∃ chunks, P chunks ∧ ∀ transport,
    shipper.attemptBy transport ids event = used.sendBy transport chunks ∧
      shipper.shipBy transport ids event =
        (used.sendBy transport chunks).2.account (used.sendBy transport chunks).1

theorem handsOnly_keepsBudget (hmarks : shipper.pipeline.codec.Marks) (ids : IdSource)
    (event : Event) :
    shipper.HandsOnly (ChunkCursor.KeepsBudget shipper.pipeline.maxChunkSize.toNat) ids event := by
  have hship (transport : Transport) : shipper.shipBy transport ids event =
      (shipper.attemptBy transport ids event).2.account
        (shipper.attemptBy transport ids event).1 := rfl
  cases hchunks : shipper.pipeline.chunks (ids shipper.issued) event with
  | error fault =>
    refine .inl ⟨fault, fun transport => ?_⟩
    rw [hship, attemptBy_of_error hchunks]
    exact ⟨rfl, rfl⟩
  | ok chunks =>
    refine .inr ⟨chunks, Pipeline.keepsBudget_of_chunks hmarks hchunks, fun transport => ?_⟩
    rw [hship, attemptBy_of_ok hchunks]
    exact ⟨rfl, rfl⟩

theorem Serves.setup_eq {outcomes : List (Except Fault Nat)}
    (h : start.Serves ids outcomes shipper) : shipper.setup = start.setup := by
  induction h with
  | refl => rfl
  | ship _ transport event ih =>
    exact (setup_account _ _).trans ((setup_sendSplitBy transport _ _).trans ih)
  | attempt _ transport event ih => exact (setup_sendSplitBy transport _ _).trans ih
  | send _ transport chunks ih => exact (setup_sendSplitBy transport _ chunks).trans ih
  | connect _ net ih => exact (setup_connect net _).trans ih
  | @dropConnection _ shipper _ ih =>
    obtain ⟨route, heq⟩ := exists_dropConnection_eq shipper
    rw [heq]
    exact ih
  | dropSender _ ih => exact ih

/-- **The budget.** A shipper can only be built with a limit that leaves room for a payload octet.
Where its codec marks what it compresses, whatever transports answer, it hands each of them at most
128 datagrams for an event, with one octet to the limit in each, and those that begin with the magic
octets are the chunks with a header. After any run on events, the sockets and the queue were given
no other lengths. -/
theorem built_shipper_keeps_budget (hmarks : codec.Marks) (ids : IdSource)
    (hbuilt : IsBuilt hostname codec limit start) :
    13 ≤ limit.toNat ∧ start.pipeline.maxChunkSize = limit ∧
      (∀ outcomes shipper, start.Serves ids outcomes shipper → ∀ event,
        shipper.HandsOnly (ChunkCursor.KeepsBudget limit.toNat) ids event) ∧
      ∀ steps : List (Network × Step),
        (∀ s ∈ steps, ∀ payload size, s.2 ≠ .send payload size) →
          (start.run ids steps).2.Carries fun d => 1 ≤ d.length ∧ d.length ≤ limit.toNat := by
  have hlimit := hbuilt.maxChunkSize_eq
  obtain rfl := hbuilt.codec_eq
  refine ⟨?_, hlimit, ?_, ?_⟩
  · rw [← hlimit]
    exact start.pipeline.hasRoom
  · intro outcomes shipper hserves event
    have hsame : shipper.pipeline = start.pipeline := congrArg Prod.fst hserves.setup_eq
    have hands := handsOnly_keepsBudget (hsame.symm ▸ hmarks) ids event
    rw [hsame, hlimit] at hands
    exact hands
  · intro steps hsteps
    refine (hbuilt.carries _).run ids ?_ hsteps
    intro id event cursor hcursor chunk hchunk
    have hbudget := Pipeline.keepsBudget_of_chunks hmarks hcursor
    rw [hlimit] at hbudget
    exact ⟨hbudget.nonempty chunk hchunk, hbudget.short chunk hchunk⟩

/-- A record of 88 octets is cut in two under a limit of 80. -/
theorem small_budget_is_kept :
    let builder : Builder := { sourceHost := some "relay", maxChunkSize := 80 }
    let steps : List (Network × Step) :=
      [(.lossless, .ship (Event.new 1.5 "the relay is up again"))]
    ∃ start, builder.direct (.name "") ⟨"127.0.0.1", 12201⟩ .own = .ok start ∧
      13 ≤ (80 : UInt64).toNat ∧
      let final := (start.run MessageId.ofNat steps).2
      final.wire.map (fun a => (Datagram.isChunk a.datagram, a.datagram.length)) =
        [(true, 80), (true, 32)] ∧
      final.Carries fun d => 1 ≤ d.length ∧ d.length ≤ 80 := by
  intro builder steps
  cases hbuilt : builder.direct (.name "") ⟨"127.0.0.1", 12201⟩ .own with
  | error e => cases hbuilt
  | ok start =>
    obtain ⟨hroom, -, -, hrun⟩ :=
      built_shipper_keeps_budget Codec.own_marks MessageId.ofNat (.direct hbuilt)
    have hsteps : ∀ s ∈ steps, ∀ payload size, s.2 ≠ .send payload size := by simp [steps]
    refine ⟨start, rfl, hroom, ?_, hrun steps hsteps⟩
    cases hbuilt
    decide +kernel

end Shipper

end Gelf
