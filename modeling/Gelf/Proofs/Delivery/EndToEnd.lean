import Gelf.Proofs.Compression
import Gelf.Proofs.Delivery.Conservation
import Gelf.Proofs.Shipper.Pipeline
import Gelf.Proofs.Shipper.Steps

/-!
# From events to records

What a receiver gets from all datagrams of the events that were shipped is the records of the
events. A run of a shipper is cut into its shipments, each of which carries one record, and the
receiver needs nothing but the datagrams.
-/

namespace Gelf

namespace Shipper

open Delivery (Network Queue)

/-! ### Shipments -/

/-- The datagrams that the shipper handed on so far: to the network, or to its queue. -/
def handedOn (shipper : Shipper) : List Datagram :=
  match shipper.route with
  | .direct => shipper.delivered
  | .queued queue => queue.accepted

/-- An event that was shipped, and the datagrams that were handed on for it. -/
structure Shipment where
  event : Event
  datagrams : List Datagram

/-- What a step ships, if it ships an event and succeeds. -/
def shipment? (net : Network) (ids : IdSource) (shipper : Shipper) : Step → Option Shipment
  | .ship event | .attempt event =>
    match shipper.attempt net ids event with
    | (.ok _, after) => some ⟨event, after.handedOn.drop shipper.handedOn.length⟩
    | (.error _, _) => none
  | .send _ _ | .connect | .dropConnection | .dropSender => none

/-- All that is shipped in a run, the first shipment first. -/
def shipments (ids : IdSource) (shipper : Shipper) : List (Network × Step) → List Shipment
  | [] => []
  | (net, step) :: steps =>
    (shipper.shipment? net ids step).toList ++ shipments ids (shipper.step net ids step).2 steps

variable {net : Network} {ids : IdSource} {shipper : Shipper}

theorem handedOn_of_send {chunks : ChunkCursor} {n : Nat} (hchunks : chunks.next ≤ chunks.count)
    (h : (shipper.send net chunks).1 = .ok n) :
    (shipper.send net chunks).2.handedOn =
      shipper.handedOn ++ chunks.collect.map Chunk.datagram := by
  cases hroute : shipper.route with
  | direct =>
    rw [send_of_direct hroute] at h ⊢
    have hsend : Delivery.sendDirect net shipper.target chunks shipper.wire =
        (.ok n, (Delivery.sendDirect net shipper.target chunks shipper.wire).2) :=
      Prod.ext h rfl
    simpa only [handedOn, hroute, delivered] using Delivery.delivered_of_sendDirect hsend
  | queued queue =>
    rw [send_of_queued hroute] at h ⊢
    cases hrefusal : queue.refusal? chunks.remaining with
    | some e =>
      rw [Queue.offer_of_refusal hrefusal] at h
      cases h
    | none =>
      rw [Queue.offer_of_no_refusal hrefusal hchunks]
      simp only [handedOn, hroute, Queue.push, Queue.reserve]

theorem handedOn_of_sendSplit {chunks : ChunkCursor} {n : Nat}
    (hchunks : chunks.next ≤ chunks.count) (h : (shipper.sendSplit net (.ok chunks)).1 = .ok n) :
    (shipper.sendSplit net (.ok chunks)).2.handedOn =
      shipper.handedOn ++ chunks.collect.map Chunk.datagram :=
  handedOn_of_send hchunks h

/-- The shipment carries the record of its event, in the datagrams of a message. -/
structure Shipment.Carries (pipeline : Pipeline) (s : Shipment) (r : Record) (m : Message) :
    Prop where
  record : pipeline.encoder.record s.event = .ok r
  payload : pipeline.codec.compress pipeline.compression r.bytes = .ok m.payload
  split : ∃ chunks, Gelf.split m.id m.payload m.limit = .ok chunks
  datagrams : s.datagrams = m.datagrams

theorem exists_carries_of_attempt {event : Event} {n : Nat}
    (h : (shipper.attempt net ids event).1 = .ok n) :
    ∃ r m, Shipment.Carries shipper.pipeline
      ⟨event, (shipper.attempt net ids event).2.handedOn.drop shipper.handedOn.length⟩ r m := by
  cases hpayload : shipper.pipeline.payload event with
  | error fault =>
    rw [attempt_eq_sendSplit, Pipeline.chunks, hpayload] at h
    cases h
  | ok payload =>
    obtain ⟨r, hrecord, hcompress⟩ := Pipeline.exists_record_of_payload hpayload
    let m : Message :=
      { id := ids shipper.issued, payload, limit := shipper.pipeline.maxChunkSize }
    have hchunks : shipper.pipeline.chunks (ids shipper.issued) event =
        Gelf.split m.id m.payload m.limit := Pipeline.chunks_of_payload _ hpayload
    rw [attempt_eq_sendSplit, hchunks] at h ⊢
    obtain ⟨chunks, hsplit⟩ := exists_of_sendSplit_ok h
    refine ⟨r, m, hrecord, hcompress, ⟨chunks, hsplit⟩, ?_⟩
    rw [hsplit] at h
    dsimp only
    rw [hsplit, handedOn_of_sendSplit (Message.next_le_count hsplit) h, List.drop_left,
      Message.datagrams, hsplit]

theorem exists_carries_of_shipment? {step : Step} {s : Shipment}
    (h : shipper.shipment? net ids step = some s) : ∃ r m, s.Carries shipper.pipeline r m := by
  have hevent {event : Event} (h : shipper.shipment? net ids (.attempt event) = some s) :
      ∃ r m, s.Carries shipper.pipeline r m := by
    simp only [shipment?] at h
    split at h
    · rename_i n after hattempt
      cases h
      have hok : (shipper.attempt net ids event).1 = .ok n := by rw [hattempt]
      have hcarries := exists_carries_of_attempt hok
      rwa [hattempt] at hcarries
    · cases h
  cases step with
  | ship event => exact hevent h
  | attempt event => exact hevent h
  | send payload limit => cases h
  | connect => cases h
  | dropConnection => cases h
  | dropSender => cases h

/-! ### Runs -/

theorem pipeline_step (step : Step) :
    (shipper.step net ids step).2.pipeline = shipper.pipeline :=
  congrArg Prod.fst (setup_step net ids shipper step)

theorem exists_carries_of_run (shipper : Shipper) (ids : IdSource) (steps : List (Network × Step)) :
    ∃ parcels : List (Record × Message),
      List.Forall₂ (fun s p => s.Carries shipper.pipeline p.1 p.2) (shipper.shipments ids steps)
        parcels := by
  induction steps generalizing shipper with
  | nil => exact ⟨[], .nil⟩
  | cons s steps ih =>
    obtain ⟨net, step⟩ := s
    obtain ⟨parcels, hparcels⟩ := ih (shipper.step net ids step).2
    rw [pipeline_step] at hparcels
    rw [shipments]
    cases hshipment : shipper.shipment? net ids step with
    | none => exact ⟨parcels, hparcels⟩
    | some s =>
      obtain ⟨r, m, hcarries⟩ := exists_carries_of_shipment? hshipment
      exact ⟨(r, m) :: parcels, .cons hcarries hparcels⟩

/-! ### What the receiver gets -/

/-- No chunk of the one message has the id of a chunk of the other. -/
def DistinctIds (ds ds' : List Datagram) : Prop :=
  ∀ d ∈ ds, ∀ d' ∈ ds', d.isChunk = true → d'.isChunk = true → d.messageId ≠ d'.messageId

instance (ds ds' : List Datagram) : Decidable (DistinctIds ds ds') :=
  inferInstanceAs (Decidable (∀ d ∈ ds, ∀ d' ∈ ds', _ → _ → _))

variable {pipeline : Pipeline}

theorem Shipment.Carries.isSendable (hmarks : pipeline.codec.Marks) {s : Shipment} {r : Record}
    {m : Message} (h : s.Carries pipeline r m) : m.IsSendable where
  split := h.split
  plain := by
    obtain ⟨t, ht⟩ := Receiver.exists_bytes_eq r
    exact Receiver.isChunk_of_compress hmarks (ht ▸ h.payload)

theorem Shipment.Carries.exists_record? (hmarks : pipeline.codec.Marks)
    (hinverts : pipeline.codec.Inverts) {s : Shipment} {r : Record} {m : Message}
    (h : s.Carries pipeline r m) :
    ∃ r', Receiver.record? pipeline.codec m.payload = some r' ∧ r.SameUpToFloats r' := by
  obtain ⟨r', hread, hsame⟩ :=
    Record.exists_read_bytes (Encoder.readable_of_record_eq_ok h.record)
  refine ⟨r', ?_, hsame⟩
  rw [Receiver.record?_of_compress hmarks hinverts h.payload, hread]
  rfl

variable {ss : List Shipment} {parcels : List (Record × Message)}

theorem map_datagrams_of_carries
    (h : List.Forall₂ (fun s p => s.Carries pipeline p.1 p.2) ss parcels) :
    ss.map Shipment.datagrams = (parcels.map Prod.snd).map Message.datagrams := by
  induction h with
  | nil => rfl
  | cons hs _ ih => rw [List.map_cons, List.map_cons, List.map_cons, hs.datagrams, ih]

theorem isSendable_of_carries (hmarks : pipeline.codec.Marks)
    (h : List.Forall₂ (fun s p => s.Carries pipeline p.1 p.2) ss parcels) :
    ∀ m ∈ parcels.map Prod.snd, m.IsSendable := by
  induction h with
  | nil =>
    intro m hm
    cases hm
  | cons hs _ ih =>
    intro m hm
    rcases List.mem_cons.1 hm with rfl | hm
    · exact hs.isSendable hmarks
    · exact ih m hm

theorem nodup_ids_of_distinctIds {messages : List Message} (h : ∀ m ∈ messages, m.IsSendable)
    (hids : (messages.map Message.datagrams).Pairwise DistinctIds) :
    ((Message.chunked messages).map Message.id).Nodup := by
  apply List.pairwise_map.2
  apply List.pairwise_filter.2
  apply (List.pairwise_map.1 hids).imp_of_mem
  intro m m' hm hm' hapart hfits hfits' heq
  have hchunked := (h m hm).isChunked (of_decide_eq_true hfits)
  have hchunked' := (h m' hm').isChunked (of_decide_eq_true hfits')
  -- A message that is cut has a chunk, and its id is the id of the message.
  obtain ⟨d, hd⟩ := hchunked.exists_mem_datagrams
  obtain ⟨d', hd'⟩ := hchunked'.exists_mem_datagrams
  obtain ⟨hchunk, hid⟩ := hchunked.isChunk_of_mem hd
  obtain ⟨hchunk', hid'⟩ := hchunked'.isChunk_of_mem hd'
  apply hapart d hd d' hd' hchunk hchunk'
  rw [hid, hid', heq]

theorem exists_received_of_carries (hmarks : pipeline.codec.Marks)
    (hinverts : pipeline.codec.Inverts)
    (h : List.Forall₂ (fun s p => s.Carries pipeline p.1 p.2) ss parcels) :
    ∃ received, ((parcels.map Prod.snd).map Message.payload).filterMap
        (Receiver.record? pipeline.codec) = received ∧
      List.Forall₂ (fun s r' => ∃ r, pipeline.encoder.record s.event = .ok r ∧ r.SameUpToFloats r')
        ss received := by
  induction h with
  | nil => exact ⟨[], rfl, .nil⟩
  | cons hs _ ih =>
    obtain ⟨received, heq, hall⟩ := ih
    obtain ⟨r', hrecord, hsame⟩ := hs.exists_record? hmarks hinverts
    refine ⟨r' :: received, ?_, .cons ⟨_, hs.record, hsame⟩ hall⟩
    rw [List.map_cons, List.map_cons, List.filterMap_cons_some hrecord, heq]

/-- **End to end.** The codec of a shipper marks what it compresses and gives it back. Take all
datagrams of the events that the shipper handed on in a run, with chunks that are told apart by
their ids. In whatever order they reach a receiver, it gets the records of these events and nothing
else, up to floats. -/
theorem received_records (shipper : Shipper) (hmarks : shipper.pipeline.codec.Marks)
    (hinverts : shipper.pipeline.codec.Inverts) (ids : IdSource) (steps : List (Network × Step))
    (hids : ((shipper.shipments ids steps).map Shipment.datagrams).Pairwise DistinctIds)
    {ds : List Datagram}
    (hds : ds.Perm ((shipper.shipments ids steps).flatMap Shipment.datagrams)) :
    ∃ received, received.Perm (Receiver.records shipper.pipeline.codec ds) ∧
      List.Forall₂
        (fun s r' => ∃ r, shipper.pipeline.encoder.record s.event = .ok r ∧ r.SameUpToFloats r')
        (shipper.shipments ids steps) received := by
  -- Cut the run into messages, put these together again, and read the record of each.
  obtain ⟨parcels, hparcels⟩ := exists_carries_of_run shipper ids steps
  have hdatagrams := map_datagrams_of_carries hparcels
  have hsendable := isSendable_of_carries hmarks hparcels
  rw [hdatagrams] at hids
  rw [List.flatMap_def, hdatagrams, ← List.flatMap_def] at hds
  have hpayloads := Receiver.payloads_perm hsendable (nodup_ids_of_distinctIds hsendable hids) hds
  obtain ⟨received, heq, hall⟩ := exists_received_of_carries hmarks hinverts hparcels
  refine ⟨received, ?_, hall⟩
  rw [Receiver.records, ← heq]
  exact (hpayloads.filterMap _).symm

/-- A message in one datagram and one in chunks are received when all datagrams come backwards. -/
theorem reversed_datagrams_are_received :
    let builder : Builder := { sourceHost := some "relay", maxChunkSize := 80 }
    let steps : List (Network × Step) :=
      [(.lossless, .attempt (Event.new 1.5 "up")),
        (.lossless, .ship ((Event.new 2.5 "disk full").withFullMessage "no space left on /var"))]
    ∃ shipper, builder.direct (.name "") ⟨"127.0.0.1", 12201⟩ .own = .ok shipper ∧
      let sent := shipper.shipments MessageId.ofNat steps
      sent.map (fun s => s.datagrams.length) = [1, 2] ∧
      ∃ received,
        received.Perm (Receiver.records .own (sent.flatMap Shipment.datagrams).reverse) ∧
        List.Forall₂
          (fun s r' => ∃ r, shipper.pipeline.encoder.record s.event = .ok r ∧ r.SameUpToFloats r')
          sent received := by
  intro builder steps
  cases hbuilt : builder.direct (.name "") ⟨"127.0.0.1", 12201⟩ .own with
  | error e => cases hbuilt
  | ok shipper =>
    refine ⟨shipper, rfl, ?_⟩
    intro sent
    have hlengths : sent.map (fun s => s.datagrams.length) = [1, 2] := by
      cases hbuilt
      decide +kernel
    have hids : (sent.map Shipment.datagrams).Pairwise DistinctIds := by
      cases hbuilt
      decide +kernel
    have hcodec : shipper.pipeline.codec = .own := by
      cases hbuilt
      rfl
    have hreceived := received_records shipper (hcodec ▸ Codec.own_marks)
      (hcodec ▸ Codec.own_inverts) MessageId.ofNat steps hids (List.reverse_perm _)
    rw [hcodec] at hreceived
    exact ⟨hlengths, hreceived⟩

end Shipper

end Gelf
