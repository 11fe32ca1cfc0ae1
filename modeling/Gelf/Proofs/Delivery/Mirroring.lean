import Gelf.Proofs.Chunk.Renaming
import Gelf.Proofs.Delivery.EndToEnd
import Gelf.Proofs.Shipper.Books

/-!
# Direct and queued shippers

A queued shipper does what a direct one does, only later. Two shippers of one builder are given the
same events, one sends at once, and the connection of the other runs now and then. As long as every
send is written in full and the queue has room, the outcomes and the books of both agree after each
event, and once the queue is empty both have delivered the same datagrams, but for the message ids.
-/

namespace Gelf

/-! ### What a pipeline gives -/

/-- Whether the event cannot be shipped by any transport. -/
def Fault.BlamesEvent : Fault → Prop
  | .validation _ | .messageTooLarge _ _ => True
  | .encoding _ | .transport _ => False

namespace Pipeline

variable {pipeline : Pipeline} {event : Event}

/-- Whether and into how many datagrams an event is cut does not depend on the message id. -/
theorem chunks_map_remaining (pipeline : Pipeline) (id id' : MessageId) (event : Event) :
    (pipeline.chunks id' event).map ChunkCursor.remaining =
      (pipeline.chunks id event).map ChunkCursor.remaining := by
  unfold Pipeline.chunks
  split
  · rfl
  · exact split_map_remaining id id' _ _

theorem blamesEvent_of_chunks (hnever : pipeline.codec.NeverFails) {id : MessageId}
    {fault : Fault} (h : pipeline.chunks id event = .error fault) : fault.BlamesEvent := by
  rcases chunks_eq_error h with ⟨-, rfl⟩ | ⟨s, -, hcompress, -⟩ | ⟨payload, -, rfl⟩
  · exact trivial
  · exact absurd hcompress (hnever.compress_ne_error fault)
  · exact trivial

end Pipeline

namespace Shipper

open Delivery (Network Queue Target)

/-! ### One event -/

section OneEvent

variable {net : Network} {ids : IdSource} {shipper : Shipper} {event : Event}

/-- The outcome of an event when nothing goes wrong once it is cut. -/
def planned (ids : IdSource) (shipper : Shipper) (event : Event) : Except Fault Nat :=
  (shipper.pipeline.chunks (ids shipper.issued) event).map ChunkCursor.remaining

theorem blamesEvent_of_planned (hnever : shipper.pipeline.codec.NeverFails) {fault : Fault}
    (h : shipper.planned ids event = .error fault) : fault.BlamesEvent := by
  rw [planned] at h
  cases hchunks : shipper.pipeline.chunks (ids shipper.issued) event with
  | error fault' =>
    rw [hchunks] at h
    cases h
    exact Pipeline.blamesEvent_of_chunks hnever hchunks
  | ok cursor =>
    rw [hchunks] at h
    cases h

theorem exists_message_of_chunks {cursor : ChunkCursor}
    (h : shipper.pipeline.chunks (ids shipper.issued) event = .ok cursor) :
    ∃ m, shipper.message? ids (.attempt event) = some m ∧
      split m.id m.payload m.limit = .ok cursor := by
  cases hpayload : shipper.pipeline.payload event with
  | error fault =>
    rw [Pipeline.chunks, hpayload] at h
    cases h
  | ok payload =>
    rw [Pipeline.chunks_of_payload _ hpayload] at h
    exact ⟨_, by rw [message?, hpayload]; rfl, h⟩

theorem attempt_of_direct (hroute : shipper.route = .direct)
    (hreaches : net.Reaches shipper.target)
    (hall : ∀ a ∈ (shipper.attempt net ids event).2.wire, a.isDelivered = true) :
    (shipper.attempt net ids event).1 = shipper.planned ids event := by
  rw [attempt_eq_sendSplit] at hall ⊢
  rw [planned]
  cases hchunks : shipper.pipeline.chunks (ids shipper.issued) event with
  | error fault => rfl
  | ok cursor =>
    rw [hchunks, sendSplit_of_direct hroute] at hall
    rw [sendSplit_of_direct hroute]
    have hlength := ChunkCursor.length_collect (Pipeline.inUse_of_chunks hchunks).next_le_count
    exact (Delivery.sendDirect_of_all_delivered hreaches hall).trans (congrArg _ hlength)

theorem attempt_of_queued {queue : Queue} {capacity : Nat} (hroute : shipper.route = .queued queue)
    (hopen : queue.isOpen = true) (hqueue : queue.Balanced capacity)
    (hfits : ∀ m ∈ shipper.message? ids (.attempt event),
      queue.waiting.length + m.datagrams.length ≤ capacity) :
    (shipper.attempt net ids event).1 = shipper.planned ids event := by
  rw [attempt_eq_sendSplit, planned]
  cases hchunks : shipper.pipeline.chunks (ids shipper.issued) event with
  | error fault => rfl
  | ok cursor =>
    obtain ⟨m, hmessage, hsplit⟩ := exists_message_of_chunks hchunks
    have hcursor := Message.next_le_count hsplit
    have hlength : m.datagrams.length = cursor.remaining := by
      rw [Message.datagrams, hsplit, List.length_map, ChunkCursor.length_collect hcursor]
    have hroom := hfits m hmessage
    have hadmits : queue.refusal? cursor.remaining = none := by
      rw [hqueue.refusal?_eq_none_iff_room, ← hlength]
      exact ⟨hopen, by omega⟩
    rw [sendSplit_of_queued hroute, Queue.offer_of_no_refusal hadmits hcursor]
    rfl

theorem route_attempt_of_direct (net : Network) (ids : IdSource) (event : Event)
    (hroute : shipper.route = .direct) :
    (shipper.attempt net ids event).2.route = .direct := by
  rw [attempt_eq_sendSplit]
  cases shipper.pipeline.chunks (ids shipper.issued) event with
  | error fault => exact hroute
  | ok cursor =>
    rw [sendSplit_of_direct hroute]
    exact hroute

theorem accepted?_of_error {fault : Fault}
    (h : (shipper.attempt net ids event).1 = .error fault) :
    shipper.accepted? net ids (.attempt event) = none := by
  rw [accepted?, outcome?, h]

theorem accepted?_of_ok {n : Nat} (h : (shipper.attempt net ids event).1 = .ok n) :
    shipper.accepted? net ids (.attempt event) = shipper.message? ids (.attempt event) := by
  rw [accepted?, outcome?, h]

theorem delivered_attempt_of_direct (hroute : shipper.route = .direct)
    (hplanned : (shipper.attempt net ids event).1 = shipper.planned ids event) :
    (shipper.attempt net ids event).2.delivered =
      shipper.delivered ++
        (shipper.accepted? net ids (.attempt event)).toList.flatMap Message.datagrams := by
  cases hchunks : shipper.pipeline.chunks (ids shipper.issued) event with
  | error fault =>
    have herror : (shipper.attempt net ids event).1 = .error fault := by
      rw [hplanned, planned, hchunks]
      rfl
    rw [accepted?_of_error herror, attempt_eq_sendSplit, hchunks]
    exact (List.append_nil _).symm
  | ok cursor =>
    obtain ⟨m, hmessage, hsplit⟩ := exists_message_of_chunks hchunks
    have hok : (shipper.attempt net ids event).1 = .ok cursor.remaining := by
      rw [hplanned, planned, hchunks]
      rfl
    have hhanded :
        (shipper.attempt net ids event).2.handedOn = shipper.handedOn ++ m.datagrams := by
      rw [attempt_eq_sendSplit, hchunks] at hok ⊢
      rw [handedOn_of_sendSplit (Message.next_le_count hsplit) hok, Message.datagrams, hsplit]
    have hroute' := route_attempt_of_direct net ids event hroute
    simp only [handedOn, hroute, hroute'] at hhanded
    rw [accepted?_of_ok hok, hmessage, hhanded]
    simp

end OneEvent

/-! ### One step on each side -/

/-- A direct shipper, and a queued one that was given the same events. -/
structure Agrees (capacity : Nat) (direct queued : Shipper) : Prop where
  setup : queued.setup = direct.setup
  books : queued.books = direct.books
  route : direct.route = .direct
  conserves : ∃ accepted, queued.Conserves queued.target capacity accepted

def isEvent : Step → Bool
  | .ship _ | .attempt _ => true
  | .send _ _ | .connect | .dropConnection | .dropSender => false

variable {net net' : Network} {ids ids' : IdSource} {capacity : Nat} {direct queued : Shipper}

namespace Agrees

theorem pipeline_eq (h : Agrees capacity direct queued) : queued.pipeline = direct.pipeline :=
  congrArg Prod.fst h.setup

theorem account (h : Agrees capacity direct queued) (result : Except Fault Nat) :
    Agrees capacity (direct.account result) (queued.account result) := by
  have hcounters : queued.counters = direct.counters := congrArg Prod.fst h.books
  have hreported : queued.reported = direct.reported := congrArg Prod.snd h.books
  have hbooks : (queued.account result).books = (direct.account result).books := by
    cases result <;> simp only [Shipper.books, Shipper.account, hcounters, hreported]
  cases result with
  | ok n => exact ⟨h.setup, hbooks, h.route, h.conserves⟩
  | error fault => exact ⟨h.setup, hbooks, h.route, h.conserves⟩

theorem connect (h : Agrees capacity direct queued) (net : Network) :
    Agrees capacity direct (queued.connect net).2 := by
  obtain ⟨accepted, hconserves⟩ := h.conserves
  have hkept := setup_connect net queued
  have hbooks := (books_connect net queued).trans h.books
  refine ⟨hkept.trans h.setup, hbooks, h.route, accepted, ?_⟩
  rw [target_eq_of_setup_eq hkept]
  exact hconserves.connect net

theorem planned (h : Agrees capacity direct queued) (ids ids' : IdSource) (event : Event) :
    queued.planned ids' event = direct.planned ids event := by
  rw [Shipper.planned, Shipper.planned, h.pipeline_eq]
  exact Pipeline.chunks_map_remaining _ _ _ _

theorem renames (h : Agrees capacity direct queued) (hmarks : direct.pipeline.codec.Marks)
    {event : Event}
    (hdirect : (direct.attempt net ids event).1 = direct.planned ids event)
    (hqueued : (queued.attempt net' ids' event).1 = direct.planned ids event) :
    List.Forall₂ Message.Renames (direct.accepted? net ids (.attempt event)).toList
      (queued.accepted? net' ids' (.attempt event)).toList := by
  cases hplanned : direct.planned ids event with
  | error fault =>
    rw [accepted?_of_error (hdirect.trans hplanned), accepted?_of_error (hqueued.trans hplanned)]
    exact .nil
  | ok n =>
    rw [accepted?_of_ok (hdirect.trans hplanned), accepted?_of_ok (hqueued.trans hplanned),
      message?, message?, h.pipeline_eq]
    cases hpayload : direct.pipeline.payload event with
    | error fault => exact .nil
    | ok payload => exact .cons ⟨rfl, rfl, Pipeline.isChunk_payload hmarks hpayload⟩ .nil

theorem attempt (h : Agrees capacity direct queued) (net' : Network) {event : Event}
    (hreaches : net.Reaches direct.target)
    (hall : ∀ a ∈ (direct.attempt net ids event).2.wire, a.isDelivered = true)
    (hfits : ∀ m ∈ queued.message? ids' (.attempt event),
      queued.waiting.length + m.datagrams.length ≤ capacity) :
    (direct.attempt net ids event).1 = direct.planned ids event ∧
      (queued.attempt net' ids' event).1 = direct.planned ids event ∧
      Agrees capacity (direct.attempt net ids event).2 (queued.attempt net' ids' event).2 := by
  have hdirect := attempt_of_direct h.route hreaches hall
  obtain ⟨accepted, hconserves⟩ := h.conserves
  have hqueued : (queued.attempt net' ids' event).1 = direct.planned ids event := by
    obtain ⟨queue, hroute, -, hqueue⟩ := hconserves
    have hwaiting : queued.waiting = queue.waiting := by
      simp only [waiting, hroute]
    rw [hwaiting] at hfits
    rw [← h.planned ids ids' event]
    exact attempt_of_queued hroute hqueue.isOpen hqueue.balanced hfits
  have hconserves' : (queued.attempt net' ids' event).2.Conserves queued.target capacity _ :=
    hconserves.attempt event
  rw [← target_eq_of_setup_eq (setup_attempt net' ids' queued event)] at hconserves'
  refine ⟨hdirect, hqueued, ?_, ?_, route_attempt_of_direct net ids event h.route, _, hconserves'⟩
  · rw [setup_attempt, setup_attempt, h.setup]
  · rw [books_attempt, books_attempt, h.books]

/-- **One event.** It has one outcome on both sides, and what is taken is the same but for an id. -/
theorem step (h : Agrees capacity direct queued) (hmarks : direct.pipeline.codec.Marks)
    (net' : Network) {step : Step} (hevent : isEvent step = true)
    (hreaches : net.Reaches direct.target)
    (hall : ∀ a ∈ (direct.step net ids step).2.wire, a.isDelivered = true)
    (hfits : ∀ m ∈ queued.message? ids' step,
      queued.waiting.length + m.datagrams.length ≤ capacity) :
    Agrees capacity (direct.step net ids step).2 (queued.step net' ids' step).2 ∧
      (∃ event, direct.outcome? net ids step = some (direct.planned ids event) ∧
        queued.outcome? net' ids' step = some (direct.planned ids event)) ∧
      List.Forall₂ Message.Renames (direct.accepted? net ids step).toList
        (queued.accepted? net' ids' step).toList ∧
      (direct.step net ids step).2.delivered =
        direct.delivered ++
          (direct.accepted? net ids step).toList.flatMap Message.datagrams := by
  cases step with
  | attempt event =>
    obtain ⟨hdirect, hqueued, hagrees⟩ := h.attempt net' hreaches hall hfits
    exact ⟨hagrees, ⟨event, congrArg some hdirect, congrArg some hqueued⟩,
      h.renames hmarks hdirect hqueued, delivered_attempt_of_direct h.route hdirect⟩
  | ship event =>
    -- Handling is attempting, and then both sides account for one and the same outcome.
    have hwire : (direct.ship net ids event).wire = (direct.attempt net ids event).2.wire :=
      wire_account _ _
    have hall' : ∀ a ∈ (direct.attempt net ids event).2.wire, a.isDelivered = true := hwire ▸ hall
    obtain ⟨hdirect, hqueued, hagrees⟩ := h.attempt net' hreaches hall' hfits
    refine ⟨?_, ⟨event, congrArg some hdirect, congrArg some hqueued⟩,
      h.renames hmarks hdirect hqueued, ?_⟩
    · rw [step_ship, step_ship, hqueued, hdirect]
      exact hagrees.account _
    · rw [step_ship, delivered, wire_account]
      exact delivered_attempt_of_direct h.route hdirect
  | send payload limit => cases hevent
  | connect => cases hevent
  | dropConnection => cases hevent
  | dropSender => cases hevent

end Agrees

/-! ### Runs side by side -/

/-- The steps of a direct and of a queued shipper that are given the same events. The connection of
the queued one runs at any moments in between, and each step meets a network of its own. -/
inductive Interleaves : List (Network × Step) → List (Network × Step) → Prop
  | nil : Interleaves [] []
  | event {steps steps' : List (Network × Step)} (net net' : Network) {step : Step}
    (hevent : isEvent step = true) (h : Interleaves steps steps') :
    Interleaves ((net, step) :: steps) ((net', step) :: steps')
  | connect {steps steps' : List (Network × Step)} (net' : Network) (h : Interleaves steps steps') :
    Interleaves steps ((net', .connect) :: steps')

def outcomes (ids : IdSource) (shipper : Shipper) : List (Network × Step) → List (Except Fault Nat)
  | [] => []
  | (net, step) :: steps =>
    (shipper.outcome? net ids step).toList ++ outcomes ids (shipper.step net ids step).2 steps

/-- Each message of a run finds room in the queue when it is its turn. -/
def FitsAlong (capacity : Nat) (ids : IdSource) (shipper : Shipper) : List (Network × Step) → Prop
  | [] => True
  | (net, step) :: steps =>
    (∀ m ∈ shipper.message? ids step, shipper.waiting.length + m.datagrams.length ≤ capacity) ∧
      FitsAlong capacity ids (shipper.step net ids step).2 steps

/-- What two runs side by side have in common. -/
structure Mirrors (capacity : Nat) (ids ids' : IdSource) (direct queued : Shipper)
    (steps steps' : List (Network × Step)) : Prop where
  agrees : Agrees capacity (direct.run ids steps).2 (queued.run ids' steps').2
  outcomes : queued.outcomes ids' steps' = direct.outcomes ids steps
  faults : direct.pipeline.codec.NeverFails →
    ∀ fault, .error fault ∈ direct.outcomes ids steps → fault.BlamesEvent
  renames : List.Forall₂ Message.Renames (direct.acceptedMessages ids steps)
    (queued.acceptedMessages ids' steps')
  delivered : (direct.run ids steps).2.delivered =
    direct.delivered ++ (direct.acceptedMessages ids steps).flatMap Message.datagrams

theorem Agrees.run (h : Agrees capacity direct queued) (hmarks : direct.pipeline.codec.Marks)
    {steps steps' : List (Network × Step)} (hsame : Interleaves steps steps')
    (hreaches : ∀ s ∈ steps, s.1.Reaches direct.target)
    (hall : ∀ a ∈ (direct.run ids steps).2.wire, a.isDelivered = true)
    (hfits : queued.FitsAlong capacity ids' steps') :
    Mirrors capacity ids ids' direct queued steps steps' := by
  induction hsame generalizing direct queued with
  | nil => exact ⟨h, rfl, fun _ => nofun, .nil, (List.append_nil _).symm⟩
  | @event steps steps' net net' step hevent hsame ih =>
    -- What the first step sent is still on the wire at the end.
    have hall' : ∀ a ∈ (direct.step net ids step).2.wire, a.isDelivered = true := by
      intro a ha
      exact hall a ((prefix_run ids (direct.step net ids step).2 steps).subset ha)
    have hsetup := setup_step net ids direct step
    have htarget := target_eq_of_setup_eq hsetup
    have hpipeline : (direct.step net ids step).2.pipeline = direct.pipeline :=
      congrArg Prod.fst hsetup
    obtain ⟨hagrees, ⟨event, houtcome, houtcome'⟩, hrenames, hdelivered⟩ :=
      h.step hmarks net' hevent (hreaches _ List.mem_cons_self) hall' hfits.1
    have hreaches' : ∀ s ∈ steps, s.1.Reaches (direct.step net ids step).2.target := by
      intro s hs
      rw [htarget]
      exact hreaches s (List.mem_cons_of_mem _ hs)
    have hrest := ih hagrees (hpipeline.symm ▸ hmarks) hreaches' hall hfits.2
    constructor
    · exact hrest.agrees
    · rw [outcomes, outcomes, houtcome, houtcome', hrest.outcomes]
    · intro hnever fault hfault
      rw [outcomes, houtcome] at hfault
      rcases List.mem_cons.1 hfault with hfirst | hlater
      · exact blamesEvent_of_planned hnever hfirst.symm
      · exact hrest.faults (hpipeline.symm ▸ hnever) fault hlater
    · exact List.rel_append hrenames hrest.renames
    · rw [acceptedMessages, List.flatMap_append, ← List.append_assoc, ← hdelivered]
      exact hrest.delivered
  | connect net' hsame ih =>
    -- Only the queued side moves, and no event is given to it.
    have hrest := ih (h.connect net') hmarks hreaches hall hfits.2
    exact ⟨hrest.agrees, hrest.outcomes, hrest.faults, hrest.renames, hrest.delivered⟩

theorem Interleaves.kept {steps steps' : List (Network × Step)} (h : Interleaves steps steps') :
    ∀ s ∈ steps', s.2 ≠ .dropConnection := by
  induction h with
  | nil => nofun
  | event net net' hevent _ ih =>
    intro s hs
    rcases List.mem_cons.1 hs with rfl | hs
    · rintro rfl
      cases hevent
    · exact ih s hs
  | connect net' _ ih =>
    intro s hs
    rcases List.mem_cons.1 hs with rfl | hs
    · nofun
    · exact ih s hs

variable {builder : Builder} {hostname : Hostname} {target : Target} {buffer : Nat} {codec : Codec}

theorem agrees_of_built (hdirect : builder.direct hostname target codec = .ok direct)
    (hqueued : builder.queued hostname target buffer codec = .ok queued) :
    direct.target = target ∧ direct.pipeline.codec = codec ∧ direct.delivered = [] ∧
      Agrees (max buffer 1) direct queued := by
  have hconserves := conserves_of_queued hqueued
  obtain ⟨pipeline, hpipeline, rfl⟩ := Builder.exists_of_direct hdirect
  obtain ⟨pipeline', hpipeline', rfl⟩ := Builder.exists_of_queued hqueued
  obtain rfl : pipeline = pipeline' := Except.ok.inj (hpipeline.symm.trans hpipeline')
  obtain ⟨-, -, -, -, hcodec, -⟩ := Builder.exists_host_of_build hpipeline
  exact ⟨rfl, hcodec, rfl, rfl, rfl, rfl, [], hconserves⟩

/-- **Queueing changes nothing but the time.** A direct and a queued shipper of one builder are
given the same events. Their codec marks what it compresses, every send is written in full, every
message finds room in the queue, and in the end the queue is empty. Then both have the same outcomes,
books and datagrams, up to message ids. Where the codec never fails, only events are at fault. -/
theorem queued_mirrors_direct {ids ids' : IdSource} (hmarks : codec.Marks)
    (hdirect : builder.direct hostname target codec = .ok direct)
    (hqueued : builder.queued hostname target buffer codec = .ok queued)
    {steps steps' : List (Network × Step)} (hsame : Interleaves steps steps')
    (hreaches : ∀ s ∈ steps, s.1.Reaches target)
    (hsent : ∀ a ∈ (direct.run ids steps).2.wire, a.isDelivered = true)
    (hsent' : ∀ a ∈ (queued.run ids' steps').2.wire, a.isDelivered = true)
    (hfits : queued.FitsAlong (max buffer 1) ids' steps')
    (hempty : (queued.run ids' steps').2.waiting = []) :
    let final := (direct.run ids steps).2
    let final' := (queued.run ids' steps').2
    let messages := direct.acceptedMessages ids steps
    let messages' := queued.acceptedMessages ids' steps'
    queued.outcomes ids' steps' = direct.outcomes ids steps ∧
      (codec.NeverFails →
        ∀ fault, .error fault ∈ direct.outcomes ids steps → fault.BlamesEvent) ∧
      final'.counters = final.counters ∧
      final'.sink = final.sink ∧
      final'.reported = final.reported ∧
      final.delivered = messages.flatMap Message.datagrams ∧
      final'.delivered = messages'.flatMap Message.datagrams ∧
      List.Forall₂ (fun m m' => m'.datagrams = m.datagrams.map (Datagram.withId m'.id))
        messages messages' := by
  intro final final' messages messages'
  obtain ⟨rfl, rfl, hnew, hagrees⟩ := agrees_of_built hdirect hqueued
  have hmirrors := hagrees.run hmarks hsame hreaches hsent hfits
  have hsetup := hmirrors.agrees.setup
  have hbooks := hmirrors.agrees.books
  have hdelivered' : final'.delivered = messages'.flatMap Message.datagrams := by
    obtain ⟨queue, hroute, -, hqueue⟩ := (conserves_of_queued hqueued).run ids' hsame.kept
    have hwaiting : final'.waiting = queue.waiting := by
      simp only [waiting, final', hroute]
    have hexact := hqueue.exact hsent'
    rwa [← hwaiting, hempty, List.append_nil, List.nil_append] at hexact
  refine ⟨hmirrors.outcomes, hmirrors.faults, congrArg Prod.fst hbooks, ?_,
    congrArg Prod.snd hbooks, ?_, hdelivered', ?_⟩
  · exact congrArg (fun setup => setup.2.1) hsetup
  · have hdelivered := hmirrors.delivered
    rwa [hnew, List.nil_append] at hdelivered
  · exact hmirrors.renames.imp fun _ _ h => h.datagrams

/-- One event takes a datagram, one takes two, and one is blank. The queue holds two datagrams. -/
theorem three_events_are_mirrored :
    let builder : Builder := { sourceHost := some "relay", maxChunkSize := 80 }
    let short := Event.new 1.5 "up"
    let long := (Event.new 2.5 "disk full").withFullMessage "no space left on /var"
    let blank := Event.new 3.5 ""
    let ids : IdSource := MessageId.ofNat
    let ids' : IdSource := fun n => .ofNat (n + 7)
    let steps : List (Network × Step) :=
      [(.lossless, .ship short), (.lossless, .attempt long), (.lossless, .ship blank)]
    let steps' : List (Network × Step) :=
      [(.lossless, .ship short), (.lossless, .connect), (.lossless, .attempt long),
        (.lossless, .ship blank), (.lossless, .connect)]
    ∃ direct queued, builder.direct (.name "") ⟨"127.0.0.1", 12201⟩ .own = .ok direct ∧
      builder.queued (.name "") ⟨"127.0.0.1", 12201⟩ 2 .own = .ok queued ∧
      sizes (direct.outcomes ids steps) = [1, 2] ∧
      queued.outcomes ids' steps' = direct.outcomes ids steps ∧
      (queued.run ids' steps').2.counters = (direct.run ids steps).2.counters ∧
      List.Forall₂ (fun m m' => m'.datagrams = m.datagrams.map (Datagram.withId m'.id))
        (direct.acceptedMessages ids steps) (queued.acceptedMessages ids' steps') := by
  intro builder short long blank ids ids' steps steps'
  cases hdirect : builder.direct (.name "") ⟨"127.0.0.1", 12201⟩ .own with
  | error e => cases hdirect
  | ok direct =>
    cases hqueued : builder.queued (.name "") ⟨"127.0.0.1", 12201⟩ 2 .own with
    | error e => cases hqueued
    | ok queued =>
      have hsame : Interleaves steps steps' :=
        .event _ _ rfl (.connect _ (.event _ _ rfl (.event _ _ rfl (.connect _ .nil))))
      have hlossless : Network.lossless.Reaches ⟨"127.0.0.1", 12201⟩ :=
        ⟨⟨.v4 #v[127, 0, 0, 1], 12201⟩, rfl, rfl⟩
      have hreaches : ∀ s ∈ steps, s.1.Reaches ⟨"127.0.0.1", 12201⟩ := by
        simp [steps, hlossless]
      have hsent : ∀ a ∈ (direct.run ids steps).2.wire, a.isDelivered = true := by
        cases hdirect
        decide +kernel
      have hsent' : ∀ a ∈ (queued.run ids' steps').2.wire, a.isDelivered = true := by
        cases hqueued
        decide +kernel
      have hfits : queued.FitsAlong 2 ids' steps' := by
        cases hqueued
        exact ⟨by decide +kernel, by decide +kernel, by decide +kernel, by decide +kernel,
          by decide +kernel, trivial⟩
      have hempty : (queued.run ids' steps').2.waiting = [] := by
        cases hqueued
        decide +kernel
      obtain ⟨houtcomes, -, hcounters, -, -, -, -, hrenames⟩ :=
        queued_mirrors_direct Codec.own_marks hdirect hqueued hsame hreaches hsent hsent' hfits
          hempty
      refine ⟨direct, queued, rfl, rfl, ?_, houtcomes, hcounters, hrenames⟩
      cases hdirect
      decide +kernel

end Shipper

end Gelf
