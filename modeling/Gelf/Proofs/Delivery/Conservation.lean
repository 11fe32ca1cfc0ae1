import Gelf.Proofs.Chunk.Layout
import Gelf.Proofs.Delivery.Draining
import Gelf.Proofs.Delivery.Permits
import Gelf.Shipper.Run

/-!
# Conservation of queued datagrams

Three logs of a queued shipper are tied together over every run: the messages it accepted, the
datagrams its connections delivered, and those that still wait. `Queue.Conserved` is the invariant,
each step of a shipper keeps it, and so does every run in which the connection is kept.
-/

namespace Gelf

namespace Delivery.Queue

/-- The queue and the wire of a shipper that accepted some datagrams so far. -/
structure Conserved (capacity : Nat) (accepted : List Datagram) (queue : Queue) (wire : Wire) :
    Prop where
  isOpen : queue.isOpen = true
  balanced : queue.Balanced capacity
  sublist : (wire.delivered ++ queue.waiting).Sublist accepted
  exact : (∀ a ∈ wire, a.isDelivered = true) → wire.delivered ++ queue.waiting = accepted

namespace Conserved

variable {capacity : Nat} {accepted : List Datagram} {queue : Queue} {wire : Wire}

theorem new (buffer : Nat) : Conserved (max buffer 1) [] (.new buffer) [] where
  isOpen := rfl
  balanced := .new buffer
  sublist := List.Sublist.refl _
  exact _ := rfl

theorem push (h : Conserved capacity accepted queue wire) {ds : List Datagram}
    (hroom : queue.refusal? ds.length = none) :
    Conserved capacity (accepted ++ ds) ((queue.reserve ds.length).push ds) wire where
  isOpen := h.isOpen
  balanced := h.balanced.push (refusal?_eq_none_iff.1 hroom).2.2
  sublist := by
    simp only [Queue.push, reserve]
    rw [← List.append_assoc]
    exact h.sublist.append_right ds
  exact hall := by
    simp only [Queue.push, reserve]
    rw [← List.append_assoc, h.exact hall]

theorem drain (h : Conserved capacity accepted queue wire) {waiting : List Datagram} {wire' : Wire}
    (hdrains : Drains queue.waiting wire waiting wire') :
    Conserved capacity accepted (queue.drainedTo waiting) wire' where
  isOpen := h.isOpen
  balanced := h.balanced.drainedTo hdrains.length_le
  sublist := by
    obtain ⟨sent, rfl, hsub, -⟩ := hdrains
    rw [Wire.delivered_append, List.append_assoc]
    exact (hsub.append_left _).trans h.sublist
  exact hall := by
    obtain ⟨sent, rfl, -, hsent⟩ := hdrains
    have hold : ∀ a ∈ wire, a.isDelivered = true := by
      intro a ha
      exact hall a (List.mem_append_left _ ha)
    have hnew : ∀ a ∈ sent, a.isDelivered = true := by
      intro a ha
      exact hall a (List.mem_append_right _ ha)
    rw [Wire.delivered_append, List.append_assoc, waiting_drainedTo, hsent hnew, h.exact hold]

end Conserved

end Delivery.Queue

namespace Shipper

open Delivery (Network Queue Target)

/-! ### The messages that a run accepts -/

def waiting (shipper : Shipper) : List Datagram :=
  match shipper.route with
  | .direct => []
  | .queued queue => queue.waiting

def message? (ids : IdSource) (shipper : Shipper) : Step → Option Message
  | .ship event | .attempt event =>
    (shipper.pipeline.payload event).toOption.map fun payload =>
      { id := ids shipper.issued, payload, limit := shipper.pipeline.maxChunkSize }
  | .send payload limit => some { id := ids shipper.issued, payload, limit }
  | .connect | .dropConnection | .dropSender => none

def outcome? (net : Network) (ids : IdSource) (shipper : Shipper) : Step → Option (Except Fault Nat)
  | .ship event | .attempt event => some (shipper.attempt net ids event).1
  | .send payload limit => some (shipper.sendPayload net ids payload limit).1
  | .connect | .dropConnection | .dropSender => none

/-- The message that a step is about, when it is taken. -/
def accepted? (net : Network) (ids : IdSource) (shipper : Shipper) (step : Step) : Option Message :=
  match shipper.outcome? net ids step with
  | some (.ok _) => shipper.message? ids step
  | _ => none

/-- The messages that are taken in a run, the first one first. -/
def acceptedMessages (ids : IdSource) (shipper : Shipper) : List (Network × Step) → List Message
  | [] => []
  | (net, step) :: steps =>
    (shipper.accepted? net ids step).toList ++
      acceptedMessages ids (shipper.step net ids step).2 steps

/-! ### What one step keeps -/

/-- The state of a queued shipper whose connection is kept. -/
def Conserves (target : Target) (capacity : Nat) (accepted : List Datagram) (shipper : Shipper) :
    Prop :=
  ∃ queue, shipper.route = .queued queue ∧ shipper.target = target ∧
    queue.Conserved capacity accepted shipper.wire

theorem conserves_of_queued {builder : Builder} {hostname : Hostname} {target : Target}
    {buffer : Nat} {codec : Codec} {shipper : Shipper}
    (hbuilt : builder.queued hostname target buffer codec = .ok shipper) :
    shipper.Conserves target (max buffer 1) [] := by
  obtain ⟨pipeline, -, rfl⟩ := Builder.exists_of_queued hbuilt
  exact ⟨.new buffer, rfl, rfl, .new buffer⟩

variable {net : Network} {ids : IdSource} {target : Target} {capacity : Nat}
  {accepted : List Datagram} {shipper : Shipper}

theorem Conserves.account (h : shipper.Conserves target capacity accepted)
    (result : Except Fault Nat) : (shipper.account result).Conserves target capacity accepted := by
  obtain ⟨queue, hroute, htarget, hqueue⟩ := h
  cases result <;> exact ⟨queue, hroute, htarget, hqueue⟩

theorem Conserves.sendSplit_error (h : shipper.Conserves target capacity accepted) (fault : Fault) :
    (shipper.sendSplit net (.error fault)).2.Conserves target capacity accepted := by
  obtain ⟨queue, hroute, htarget, hqueue⟩ := h
  exact ⟨queue, hroute, htarget, hqueue⟩

/-- The datagrams that handing on a message adds to those accepted. -/
def added (result : Except Fault Nat) (m : Message) : List Datagram :=
  match result with
  | .ok _ => m.datagrams
  | .error _ => []

theorem Conserves.sendSplit_split (h : shipper.Conserves target capacity accepted) (m : Message) :
    (shipper.sendSplit net (split m.id m.payload m.limit)).2.Conserves target capacity
      (accepted ++ added (shipper.sendSplit net (split m.id m.payload m.limit)).1 m) := by
  cases hsplit : split m.id m.payload m.limit with
  | error fault => exact (List.append_nil accepted).symm ▸ h.sendSplit_error fault
  | ok chunks =>
    obtain ⟨queue, hroute, htarget, hqueue⟩ := h
    have hdatagrams : m.datagrams = chunks.collect.map Chunk.datagram := by
      rw [Message.datagrams, hsplit]
    have hlength : m.datagrams.length = chunks.remaining := by
      rw [hdatagrams, List.length_map, ChunkCursor.length_collect (Message.next_le_count hsplit)]
    rw [sendSplit_of_queued hroute]
    refine ⟨(queue.offer chunks).2, rfl, htarget, ?_⟩
    cases hrefusal : queue.refusal? chunks.remaining with
    | some e => simpa [Queue.offer_of_refusal hrefusal, added] using hqueue
    | none =>
      have hroom : queue.refusal? m.datagrams.length = none := hlength ▸ hrefusal
      have hpush := hqueue.push hroom
      rw [Queue.offer_of_no_refusal hrefusal (Message.next_le_count hsplit), ← hdatagrams,
        ← hlength]
      exact hpush

theorem connect_of_queued {queue : Queue} (hroute : shipper.route = .queued queue)
    (hopen : queue.isOpen = true) :
    shipper.connect net =
      (some (Delivery.connect net shipper.target shipper.isLive queue.waiting shipper.wire).ending,
        { shipper with
          route := .queued (queue.drainedTo (Delivery.connect net shipper.target shipper.isLive
            queue.waiting shipper.wire).waiting)
          wire := (Delivery.connect net shipper.target shipper.isLive queue.waiting
            shipper.wire).wire }) := by
  unfold Shipper.connect
  rw [hroute]
  exact if_pos hopen

/-- A connection that takes nothing out of the queue and sends nothing changes nothing. -/
theorem connect_eq_self {queue : Queue} (hroute : shipper.route = .queued queue)
    (hopen : queue.isOpen = true) {ending : Delivery.Ending}
    (h : Delivery.connect net shipper.target shipper.isLive queue.waiting shipper.wire =
      { ending, waiting := queue.waiting, wire := shipper.wire }) :
    shipper.connect net = (some ending, shipper) := by
  rw [connect_of_queued hroute hopen, h]
  dsimp only
  rw [Queue.drainedTo_waiting, ← hroute]

theorem Conserves.connect (h : shipper.Conserves target capacity accepted) (net : Network) :
    (shipper.connect net).2.Conserves target capacity accepted := by
  obtain ⟨queue, hroute, htarget, hqueue⟩ := h
  have hconnect := Delivery.connect_drains net shipper.target shipper.isLive queue.waiting
    shipper.wire
  rw [connect_of_queued hroute hqueue.isOpen]
  exact ⟨_, rfl, htarget, hqueue.drain hconnect⟩

theorem Conserves.attempt (h : shipper.Conserves target capacity accepted) (event : Event) :
    (shipper.attempt net ids event).2.Conserves target capacity
      (accepted ++ (shipper.accepted? net ids (.attempt event)).toList.flatMap
        Message.datagrams) := by
  cases hpayload : shipper.pipeline.payload event with
  | error fault =>
    have hattempt : shipper.attempt net ids event = shipper.sendSplit net (.error fault) := by
      rw [attempt_eq_sendSplit, Pipeline.chunks, hpayload]
    have hnone : shipper.accepted? net ids (.attempt event) = none := by
      simp only [accepted?, outcome?, hattempt, Shipper.sendSplit_error]
    rw [hnone, hattempt]
    simpa using h.sendSplit_error fault
  | ok payload =>
    let m : Message := ⟨ids shipper.issued, payload, shipper.pipeline.maxChunkSize⟩
    have hattempt : shipper.attempt net ids event =
        shipper.sendSplit net (split m.id m.payload m.limit) := by
      rw [attempt_eq_sendSplit, Pipeline.chunks_of_payload _ hpayload]
    have hmessage : shipper.message? ids (.attempt event) = some m := by
      simp [message?, hpayload, m, Except.toOption]
    have hadded : (shipper.accepted? net ids (.attempt event)).toList.flatMap Message.datagrams =
        added (shipper.attempt net ids event).1 m := by
      simp only [accepted?, outcome?, hmessage]
      cases (shipper.attempt net ids event).1 <;> simp [added]
    rw [hadded, hattempt]
    exact h.sendSplit_split m

/-- **One step.** Each step of a shipper keeps the invariant, unless it gives up the connection. -/
theorem Conserves.step (h : shipper.Conserves target capacity accepted) (net : Network)
    (ids : IdSource) {step : Step} (hkept : step ≠ .dropConnection) :
    (shipper.step net ids step).2.Conserves target capacity
      (accepted ++ (shipper.accepted? net ids step).toList.flatMap Message.datagrams) := by
  cases step with
  | ship event => exact (h.attempt event).account _
  | attempt event => exact h.attempt event
  | send payload limit =>
    let m : Message := ⟨ids shipper.issued, payload, limit⟩
    have hadded : (shipper.accepted? net ids (.send payload limit)).toList.flatMap
        Message.datagrams = added (shipper.sendPayload net ids payload limit).1 m := by
      simp only [accepted?, outcome?, message?]
      cases (shipper.sendPayload net ids payload limit).1 <;> simp [added, m]
    rw [hadded]
    exact h.sendSplit_split m
  | connect => exact (List.append_nil accepted).symm ▸ h.connect net
  | dropConnection => exact absurd rfl hkept
  | dropSender => exact (List.append_nil accepted).symm ▸ h

/-! ### What a run keeps -/

theorem exists_of_sendSplit_ok {chunks : Except Fault ChunkCursor} {n : Nat}
    (h : (shipper.sendSplit net chunks).1 = .ok n) : ∃ cursor, chunks = .ok cursor := by
  cases chunks with
  | error fault => cases h
  | ok cursor => exact ⟨cursor, rfl⟩

theorem exists_split_of_accepted? {step : Step} {m : Message}
    (h : shipper.accepted? net ids step = some m) :
    ∃ chunks, split m.id m.payload m.limit = .ok chunks := by
  have hevent {event : Event} (h : shipper.accepted? net ids (.attempt event) = some m) :
      ∃ chunks, split m.id m.payload m.limit = .ok chunks := by
    simp only [accepted?, outcome?, message?] at h
    split at h
    · rename_i n hok
      obtain ⟨payload, hpayload, rfl⟩ := Option.map_eq_some_iff.1 h
      have hpayload' : shipper.pipeline.payload event = .ok payload := by
        cases hresult : shipper.pipeline.payload event with
        | error fault => simp [hresult, Except.toOption] at hpayload
        | ok p => simpa [hresult, Except.toOption] using hpayload
      rw [Option.some.injEq, attempt_eq_sendSplit, Pipeline.chunks_of_payload _ hpayload'] at hok
      exact exists_of_sendSplit_ok hok
    · cases h
  cases step with
  | ship event => exact hevent h
  | attempt event => exact hevent h
  | send payload limit =>
    simp only [accepted?, outcome?, message?] at h
    split at h
    · rename_i n hok
      cases h
      exact exists_of_sendSplit_ok (Option.some.inj hok)
    · cases h
  | connect => cases h
  | dropConnection => cases h
  | dropSender => cases h

theorem datagrams_of_mem_acceptedMessages {steps : List (Network × Step)} {m : Message}
    (h : m ∈ shipper.acceptedMessages ids steps) : m.datagrams = m.layout := by
  induction steps generalizing shipper with
  | nil => cases h
  | cons s steps ih =>
    rcases List.mem_append.1 h with hfirst | hlater
    · obtain ⟨chunks, hsplit⟩ := exists_split_of_accepted? (Option.mem_toList.1 hfirst)
      exact Message.datagrams_eq_layout hsplit
    · exact ih hlater

theorem Conserves.run (h : shipper.Conserves target capacity accepted) (ids : IdSource)
    {steps : List (Network × Step)} (hkept : ∀ s ∈ steps, s.2 ≠ .dropConnection) :
    (shipper.run ids steps).2.Conserves target capacity
      (accepted ++ (shipper.acceptedMessages ids steps).flatMap Message.datagrams) := by
  induction steps generalizing shipper accepted with
  | nil => simpa [Shipper.run, acceptedMessages] using h
  | cons s steps ih =>
    have hstep := h.step s.1 ids (hkept s List.mem_cons_self)
    have hkept' : ∀ s' ∈ steps, s'.2 ≠ .dropConnection := by
      intro s' hs'
      exact hkept s' (List.mem_cons_of_mem s hs')
    have hrest := ih hstep hkept'
    rw [acceptedMessages, List.flatMap_append, ← List.append_assoc]
    exact hrest

/-- A connection that finds no sender left delivers all that waits, unless a send fails. -/
theorem Conserves.connect_of_not_isLive (h : shipper.Conserves target capacity accepted)
    (net : Network) (failing : List (Address × IoError)) (address : Address) (rest : List Address)
    (hlive : shipper.isLive = false)
    (haddresses : target.addresses net = .ok (failing.map Prod.fst ++ address :: rest))
    (hfailing : ∀ p ∈ failing, net.socketError p.1 = some p.2)
    (hsocket : net.socketError address = none)
    (hall : ∀ a ∈ (shipper.connect net).2.wire.drop shipper.wire.length, a.isDelivered = true) :
    (shipper.connect net).1 = some (.returned failing) ∧
      (shipper.connect net).2.waiting = [] ∧
      (shipper.connect net).2.delivered = shipper.delivered ++ shipper.waiting := by
  obtain ⟨queue, hroute, rfl, hqueue⟩ := h
  have hwaiting : shipper.waiting = queue.waiting := by
    simp only [waiting, hroute]
  obtain ⟨sent, hwire, -, hsent⟩ := Delivery.connect_drains net shipper.target
    shipper.isLive queue.waiting shipper.wire
  rw [connect_of_queued hroute hqueue.isOpen] at hall ⊢
  simp only [hlive] at hall hwire hsent ⊢
  obtain ⟨hending, hempty⟩ :=
    Delivery.connect_of_all_delivered haddresses hfailing hsocket hall
  rw [hwire, List.drop_left] at hall
  have hdelivered := hsent hall
  rw [hempty, List.append_nil] at hdelivered
  refine ⟨congrArg some hending, hempty, ?_⟩
  rw [delivered, hwire, Delivery.Wire.delivered_append, hdelivered, hwaiting, delivered]

/-- A connection that finds no address with a socket leaves everything as it was. -/
theorem Conserves.connect_of_no_socket (h : shipper.Conserves target capacity accepted)
    (net : Network) (failing : List (Address × IoError))
    (haddresses : target.addresses net = .ok (failing.map Prod.fst))
    (hfailing : ∀ p ∈ failing, net.socketError p.1 = some p.2) :
    shipper.connect net = (some (.returned failing), shipper) := by
  obtain ⟨queue, hroute, rfl, hqueue⟩ := h
  exact connect_eq_self hroute hqueue.isOpen
    (Delivery.connect_of_no_socket haddresses hfailing queue.waiting shipper.wire)

/-- **Queued delivery.** While the connection is kept, what was delivered and then what waits are
datagrams of the accepted messages, in order, and all of them unless a send failed. Once no sender
is left, a connection that reaches an address with a socket delivers the rest, and the addresses
before it are its errors. Where there are only addresses without a socket, all of them are errors
and nothing is done. -/
theorem queued_run_conserves (ids : IdSource) {builder : Builder} {hostname : Hostname}
    {buffer : Nat} {codec : Codec}
    (hbuilt : builder.queued hostname target buffer codec = .ok shipper)
    (steps : List (Network × Step)) (hkept : ∀ s ∈ steps, s.2 ≠ .dropConnection) :
    let messages := shipper.acceptedMessages ids steps
    let final := (shipper.run ids steps).2
    (∀ m ∈ messages, m.datagrams = m.layout) ∧
      final.waiting.length ≤ max buffer 1 ∧
      (final.delivered ++ final.waiting).Sublist (messages.flatMap Message.datagrams) ∧
      ((∀ a ∈ final.wire, a.isDelivered = true) →
        final.delivered ++ final.waiting = messages.flatMap Message.datagrams) ∧
      (∀ (net : Network) (failing : List (Address × IoError)) (address : Address)
        (rest : List Address),
        final.isLive = false →
        target.addresses net = .ok (failing.map Prod.fst ++ address :: rest) →
        (∀ p ∈ failing, net.socketError p.1 = some p.2) →
        net.socketError address = none →
        (∀ a ∈ (final.connect net).2.wire.drop final.wire.length, a.isDelivered = true) →
        (final.connect net).1 = some (.returned failing) ∧
          (final.connect net).2.waiting = [] ∧
          (final.connect net).2.delivered = final.delivered ++ final.waiting) ∧
      ∀ (net : Network) (failing : List (Address × IoError)),
        failing ≠ [] →
        target.addresses net = .ok (failing.map Prod.fst) →
        (∀ p ∈ failing, net.socketError p.1 = some p.2) →
        final.connect net = (some (.returned failing), final) := by
  intro messages final
  have hfinal : final.Conserves target (max buffer 1) (messages.flatMap Message.datagrams) := by
    have hrun := (conserves_of_queued hbuilt).run ids hkept
    rwa [List.nil_append] at hrun
  have hend := hfinal.connect_of_not_isLive
  have hnone := hfinal.connect_of_no_socket
  obtain ⟨queue, hroute, -, hqueue⟩ := hfinal
  have hwaiting : final.waiting = queue.waiting := by
    simp only [waiting, hroute]
  refine ⟨?_, ?_, ?_, ?_, hend, fun net failing _ => hnone net failing⟩
  · intro m hm
    exact datagrams_of_mem_acceptedMessages hm
  · rw [hwaiting]
    exact hqueue.balanced.length_le
  · rw [hwaiting]
    exact hqueue.sublist
  · rw [hwaiting]
    exact hqueue.exact

/-- A message is delivered, the next one waits, and the last connection delivers that one too. -/
theorem queued_messages_are_delivered :
    let builder : Builder := { sourceHost := some "relay" }
    let steps : List (Network × Step) :=
      [(.lossless, .send [1, 2, 3] 13), (.lossless, .connect), (.lossless, .send [4, 5] 13),
        (.lossless, .dropSender)]
    ∃ shipper, builder.queued (.name "") ⟨"127.0.0.1", 12201⟩ 2 .own = .ok shipper ∧
      let final := (shipper.run MessageId.ofNat steps).2
      final.delivered ++ final.waiting = [[1, 2, 3], [4, 5]] ∧
      (final.connect .lossless).1 = some (.returned []) ∧
      (final.connect .lossless).2.delivered = [[1, 2, 3], [4, 5]] := by
  intro builder steps
  cases hbuilt : builder.queued (.name "") ⟨"127.0.0.1", 12201⟩ 2 .own with
  | error e => cases hbuilt
  | ok shipper =>
    refine ⟨shipper, rfl, ?_⟩
    obtain ⟨-, -, -, hexact, hconnect, -⟩ :=
      queued_run_conserves MessageId.ofNat hbuilt steps (by simp [steps])
    cases hbuilt
    have hboth := (hexact (by decide +kernel)).trans
      (show _ = [[1, 2, 3], [4, 5]] by decide +kernel)
    obtain ⟨hending, -, hdelivered⟩ := hconnect .lossless [] (.v4 #v[127, 0, 0, 1]) [] rfl rfl
      (by simp) rfl (by decide +kernel)
    exact ⟨hboth, hending, hdelivered.trans hboth⟩

/-- A name has two addresses, and no socket can be set up for the first one. The connection delivers
all that waits and no send fails, and yet there is an error. Where the second address has no socket
either, nothing is delivered, although no send fails. -/
theorem address_without_socket_is_an_error :
    let builder : Builder := { sourceHost := some "relay" }
    let first : Address := .v6 #v[0, 0, 0, 0, 0, 0, 0, 1]
    let second : Address := .v4 #v[127, 0, 0, 1]
    let e : IoError :=
      { kind := .uncategorized, text := "Address family not supported by protocol (os error 97)" }
    let named := { Network.lossless with lookup _ := .ok [first, second] }
    let net := { named with socketError a := if a = first then some e else none }
    let net' := { named with socketError _ := some e }
    let steps : List (Network × Step) :=
      [(.lossless, .send [120] 100), (.lossless, .dropSender)]
    ∃ shipper, builder.queued (.name "") ⟨"localhost", 12201⟩ 4 .own = .ok shipper ∧
      let final := (shipper.run MessageId.ofNat steps).2
      final.isLive = false ∧
      (final.connect net).1 = some (.returned [(first, e)]) ∧
      (∀ a ∈ (final.connect net).2.wire, a.isDelivered = true) ∧
      (final.connect net).2.delivered = [[120]] ∧
      (final.connect net').1 = some (.returned [(first, e), (second, e)]) ∧
      (∀ a ∈ (final.connect net').2.wire, a.isDelivered = true) ∧
      (final.connect net').2.delivered ≠ final.delivered ++ final.waiting := by
  intro builder first second e named net net' steps
  exact ⟨_, rfl, rfl, by decide +kernel, by decide +kernel, by decide +kernel, by decide +kernel,
    by decide +kernel, by decide +kernel⟩

end Shipper

end Gelf
