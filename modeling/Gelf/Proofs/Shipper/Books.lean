import Mathlib.Algebra.GroupWithZero.Nat
import Gelf.Proofs.Delivery.Admission
import Gelf.Proofs.Shipper.Steps

/-!
# The books of a shipper

A shipper keeps books of the events that it handles: three counters, and the faults that it
reported. Handling an event makes one entry, whatever the transport answers, and nothing else makes
any. So the books can be told from the outcomes of the events that were handled.
-/

namespace Gelf.Shipper

open Delivery (Network Queue Target)

/-- The books: what was counted, and what was reported. -/
def books (shipper : Shipper) : Counters × List Fault := (shipper.counters, shipper.reported)

def failures (outcomes : List (Except Fault Nat)) : List Fault :=
  outcomes.filterMap fun
    | .ok _ => none
    | .error fault => some fault

/-- How many datagrams were handed on for each event that was not dropped. -/
def sizes (outcomes : List (Except Fault Nat)) : List Nat := outcomes.filterMap Except.toOption

@[simp]
theorem failures_append (outcomes outcomes' : List (Except Fault Nat)) :
    failures (outcomes ++ outcomes') = failures outcomes ++ failures outcomes' :=
  List.filterMap_append

@[simp]
theorem failures_ok (n : Nat) : failures [.ok n] = [] := rfl

@[simp]
theorem failures_error (fault : Fault) : failures [.error fault] = [fault] := rfl

@[simp]
theorem sizes_append (outcomes outcomes' : List (Except Fault Nat)) :
    sizes (outcomes ++ outcomes') = sizes outcomes ++ sizes outcomes' :=
  List.filterMap_append

@[simp]
theorem sizes_ok (n : Nat) : sizes [.ok n] = [n] := rfl

@[simp]
theorem sizes_error (fault : Fault) : sizes [.error fault] = [] := rfl

theorem length_failures_add_length_sizes (outcomes : List (Except Fault Nat)) :
    (failures outcomes).length + (sizes outcomes).length = outcomes.length := by
  induction outcomes with
  | nil => rfl
  | cons outcome outcomes ih =>
    rw [← List.singleton_append, failures_append, sizes_append]
    cases outcome <;> simp <;> omega

/-- Books that tell of events with these outcomes. -/
structure Reflects (outcomes : List (Except Fault Nat)) (books : Counters × List Fault) : Prop where
  handled : books.1.handled = UInt64.ofNat outcomes.length
  dropped : books.1.dropped = UInt64.ofNat (failures outcomes).length
  sent : books.1.sent = UInt64.ofNat (sizes outcomes).sum
  balance : books.1.handled = books.1.dropped + UInt64.ofNat (sizes outcomes).length
  reported : books.2 = failures outcomes

/-- An event makes one entry, and the books still balance. -/
theorem Reflects.account {outcomes : List (Except Fault Nat)} {shipper : Shipper}
    (h : Reflects outcomes shipper.books) (result : Except Fault Nat) :
    Reflects (outcomes ++ [result]) (shipper.account result).books := by
  obtain ⟨hhandled, hdropped, hsent, -, hreported⟩ := h
  simp only [books] at hhandled hdropped hsent hreported
  -- The balance follows from the two counts that it is about.
  have hhandled' : (shipper.account result).books.1.handled =
      UInt64.ofNat (outcomes ++ [result]).length := by
    cases result <;> simp [books, Shipper.account, hhandled, UInt64.ofNat_add]
  have hdropped' : (shipper.account result).books.1.dropped =
      UInt64.ofNat (failures (outcomes ++ [result])).length := by
    cases result <;> simp [books, Shipper.account, hdropped, UInt64.ofNat_add]
  refine ⟨hhandled', hdropped', ?_, ?_, ?_⟩
  · cases result <;> simp [books, Shipper.account, hsent, UInt64.ofNat_add]
  · rw [hhandled', hdropped', ← UInt64.ofNat_add, length_failures_add_length_sizes]
  · cases result <;> simp [books, Shipper.account, hreported]

/-! ### Where no entry is made -/

section Unchanged

variable (transport : Transport) (net : Network) (ids : IdSource) (shipper : Shipper)

theorem books_sendSplitBy (chunks : Except Fault ChunkCursor) :
    (shipper.sendSplitBy transport chunks).2.books = shipper.books := by
  obtain ⟨route, wire, heq⟩ := exists_sendSplitBy_eq transport shipper chunks
  rw [heq]
  rfl

theorem books_attempt (event : Event) :
    (shipper.attempt net ids event).2.books = shipper.books :=
  books_sendSplitBy _ shipper _

theorem books_connect : (shipper.connect net).2.books = shipper.books := by
  obtain ⟨route, wire, heq⟩ := exists_connect_eq net shipper
  rw [heq]
  rfl

theorem books_dropConnection : shipper.dropConnection.books = shipper.books := by
  obtain ⟨route, heq⟩ := exists_dropConnection_eq shipper
  rw [heq]
  rfl

end Unchanged

/-! ### Handling one event -/

theorem handled_account (shipper : Shipper) (result : Except Fault Nat) :
    (shipper.account result).counters.handled = shipper.counters.handled + 1 := by
  cases result <;> rfl

theorem reported_account (shipper : Shipper) (result : Except Fault Nat) :
    (shipper.account result).reported = shipper.reported ++ failures [result] := by
  cases result with
  | ok n => exact (List.append_nil shipper.reported).symm
  | error fault => rfl

theorem handled_shipBy (transport : Transport) (ids : IdSource) (shipper : Shipper)
    (event : Event) :
    (shipper.shipBy transport ids event).counters.handled = shipper.counters.handled + 1 := by
  have hbooks := books_sendSplitBy transport shipper
    (shipper.pipeline.chunks (ids shipper.issued) event)
  have hcounters : (shipper.attemptBy transport ids event).2.counters = shipper.counters :=
    congrArg Prod.fst hbooks
  rw [← hcounters]
  exact handled_account _ _

theorem reported_shipBy (transport : Transport) (ids : IdSource) (shipper : Shipper)
    (event : Event) :
    (shipper.shipBy transport ids event).reported =
      shipper.reported ++ failures [(shipper.attemptBy transport ids event).1] := by
  have hbooks := books_sendSplitBy transport shipper
    (shipper.pipeline.chunks (ids shipper.issued) event)
  have hreported : (shipper.attemptBy transport ids event).2.reported = shipper.reported :=
    congrArg Prod.snd hbooks
  rw [← hreported]
  exact reported_account _ _

/-! ### Any transport -/

/-- What becomes of a shipper, and the outcomes of the events that it handled meanwhile. Each call
meets a transport of its own, which may answer anything. -/
inductive Serves (ids : IdSource) (start : Shipper) : List (Except Fault Nat) → Shipper → Prop
  | refl : Serves ids start [] start
  | ship {outcomes : List (Except Fault Nat)} {shipper : Shipper}
    (h : Serves ids start outcomes shipper) (transport : Transport) (event : Event) :
    Serves ids start (outcomes ++ [(shipper.attemptBy transport ids event).1])
      (shipper.shipBy transport ids event)
  | attempt {outcomes : List (Except Fault Nat)} {shipper : Shipper}
    (h : Serves ids start outcomes shipper) (transport : Transport) (event : Event) :
    Serves ids start outcomes (shipper.attemptBy transport ids event).2
  | send {outcomes : List (Except Fault Nat)} {shipper : Shipper}
    (h : Serves ids start outcomes shipper) (transport : Transport)
    (chunks : Except Fault ChunkCursor) :
    Serves ids start outcomes (shipper.sendSplitBy transport chunks).2
  | connect {outcomes : List (Except Fault Nat)} {shipper : Shipper}
    (h : Serves ids start outcomes shipper) (net : Network) :
    Serves ids start outcomes (shipper.connect net).2
  | dropConnection {outcomes : List (Except Fault Nat)} {shipper : Shipper}
    (h : Serves ids start outcomes shipper) : Serves ids start outcomes shipper.dropConnection
  | dropSender {outcomes : List (Except Fault Nat)} {shipper : Shipper}
    (h : Serves ids start outcomes shipper) : Serves ids start outcomes shipper.dropSender

variable {ids : IdSource} {start shipper : Shipper} {outcomes : List (Except Fault Nat)}

theorem Reflects.of_serves (hstart : Reflects [] start.books)
    (h : start.Serves ids outcomes shipper) : Reflects outcomes shipper.books := by
  induction h with
  | refl => exact hstart
  | @ship outcomes shipper _ transport event ih =>
    have hattempt : Reflects outcomes (shipper.attemptBy transport ids event).2.books :=
      (books_sendSplitBy transport shipper _).symm ▸ ih
    exact hattempt.account _
  | attempt _ transport event ih => exact (books_sendSplitBy transport _ _).symm ▸ ih
  | send _ transport chunks ih => exact (books_sendSplitBy transport _ chunks).symm ▸ ih
  | connect _ net ih => exact (books_connect net _).symm ▸ ih
  | dropConnection _ ih => exact (books_dropConnection _).symm ▸ ih
  | dropSender _ ih => exact ih

/-! ### Runs -/

/-- The outcomes of the events that are handled in a run, the first one first. -/
def handledOutcomes (ids : IdSource) (shipper : Shipper) :
    List (Network × Step) → List (Except Fault Nat)
  | [] => []
  | (net, step) :: steps =>
    let rest := handledOutcomes ids (shipper.step net ids step).2 steps
    match step with
    | .ship event => (shipper.attempt net ids event).1 :: rest
    | _ => rest

theorem Serves.run (h : start.Serves ids outcomes shipper) (steps : List (Network × Step)) :
    start.Serves ids (outcomes ++ shipper.handledOutcomes ids steps) (shipper.run ids steps).2 := by
  induction steps generalizing outcomes shipper with
  | nil => exact (List.append_nil outcomes).symm ▸ h
  | cons s steps ih =>
    obtain ⟨net, step⟩ := s
    cases step with
    | ship event =>
      have hrest := ih (h.ship (.towards net shipper.target) event)
      rw [List.append_assoc] at hrest
      exact hrest
    | attempt event => exact ih (h.attempt (.towards net shipper.target) event)
    | send payload limit => exact ih (h.send (.towards net shipper.target) _)
    | connect => exact ih (h.connect net)
    | dropConnection => exact ih h.dropConnection
    | dropSender => exact ih h.dropSender

/-! ### Queued shippers -/

/-- A queued shipper that has counted all datagrams that were ever queued. -/
def CountsQueued (shipper : Shipper) : Prop :=
  ∃ queue, shipper.route = .queued queue ∧
    shipper.counters.sent = UInt64.ofNat queue.accepted.length

/-- Whether a step hands datagrams to the transport without handling an event. -/
def isUncounted : Step → Bool
  | .attempt _ | .send _ _ => true
  | .ship _ | .connect | .dropConnection | .dropSender => false

theorem route_account (shipper : Shipper) (result : Except Fault Nat) :
    (shipper.account result).route = shipper.route := by
  cases result <;> rfl

theorem sent_account (shipper : Shipper) (result : Except Fault Nat) :
    (shipper.account result).counters.sent =
      shipper.counters.sent + UInt64.ofNat (sizes [result]).sum := by
  cases result <;> simp [account]

/-- What is queued is what the outcome says. -/
theorem exists_queue_of_sendSplit (net : Network) {queue : Queue}
    (hroute : shipper.route = .queued queue) (chunks : Except Fault ChunkCursor)
    (hchunks : ∀ cursor, chunks = .ok cursor → cursor.InUse) :
    ∃ queue', (shipper.sendSplit net chunks).2.route = .queued queue' ∧
      queue'.accepted.length =
        queue.accepted.length + (sizes [(shipper.sendSplit net chunks).1]).sum := by
  cases chunks with
  | error fault => exact ⟨queue, hroute, rfl⟩
  | ok cursor =>
    have hcursor := (hchunks cursor rfl).next_le_count
    rw [sendSplit_of_queued hroute]
    refine ⟨(queue.offer cursor).2, rfl, ?_⟩
    cases hrefusal : queue.refusal? cursor.remaining with
    | some e => simp [Queue.offer_of_refusal hrefusal]
    | none =>
      simp [Queue.offer_of_no_refusal hrefusal hcursor, Queue.push, Queue.reserve,
        ChunkCursor.length_collect hcursor]

namespace CountsQueued

theorem ship (h : shipper.CountsQueued) (net : Network) (ids : IdSource) (event : Event) :
    (shipper.step net ids (.ship event)).2.CountsQueued := by
  obtain ⟨queue, hroute, hsent⟩ := h
  obtain ⟨queue', hroute', hlength⟩ := exists_queue_of_sendSplit net hroute
    (shipper.pipeline.chunks (ids shipper.issued) event) fun _ => Pipeline.inUse_of_chunks
  rw [← attempt_eq_sendSplit] at hroute' hlength
  have hcounters : (shipper.attempt net ids event).2.counters = shipper.counters :=
    congrArg Prod.fst (books_attempt net ids shipper event)
  rw [step_ship]
  refine ⟨queue', ?_, ?_⟩
  · rw [route_account, hroute']
  · rw [sent_account, hcounters, hsent, hlength, UInt64.ofNat_add]

theorem step (h : shipper.CountsQueued) (net : Network) (ids : IdSource) {step : Step}
    (hstep : isUncounted step = false) : (shipper.step net ids step).2.CountsQueued := by
  cases step with
  | ship event => exact h.ship net ids event
  | attempt event => cases hstep
  | send payload limit => cases hstep
  | connect =>
    obtain ⟨queue, hroute, hsent⟩ := h
    simp only [Shipper.step, Shipper.connect, hroute]
    split
    · exact ⟨_, rfl, hsent⟩
    · exact ⟨queue, hroute, hsent⟩
  | dropConnection =>
    obtain ⟨queue, hroute, hsent⟩ := h
    simp only [Shipper.step, Shipper.dropConnection, hroute]
    exact ⟨_, rfl, hsent⟩
  | dropSender => exact h

theorem run (h : shipper.CountsQueued) (ids : IdSource) {steps : List (Network × Step)}
    (hsteps : ∀ s ∈ steps, isUncounted s.2 = false) :
    (shipper.run ids steps).2.CountsQueued := by
  induction steps generalizing shipper with
  | nil => exact h
  | cons s steps ih =>
    have hstep := h.step s.1 ids (hsteps s List.mem_cons_self)
    exact ih hstep fun s' hs' => hsteps s' (List.mem_cons_of_mem s hs')

theorem sent_eq (h : shipper.CountsQueued) :
    shipper.counters.sent = UInt64.ofNat shipper.accepted.length := by
  obtain ⟨queue, hroute, hsent⟩ := h
  rw [hsent, accepted, hroute]

end CountsQueued

/-! ### From the beginning -/

variable {builder : Builder} {hostname : Hostname} {target : Target} {codec : Codec}

theorem reflects_of_built (hbuilt : builder.direct hostname target codec = .ok start ∨
    ∃ buffer, builder.queued hostname target buffer codec = .ok start) :
    Reflects [] start.books := by
  rcases hbuilt with hdirect | ⟨buffer, hqueued⟩
  · obtain ⟨pipeline, -, rfl⟩ := Builder.exists_of_direct hdirect
    exact ⟨rfl, rfl, rfl, rfl, rfl⟩
  · obtain ⟨pipeline, -, rfl⟩ := Builder.exists_of_queued hqueued
    exact ⟨rfl, rfl, rfl, rfl, rfl⟩

theorem countsQueued_of_queued {buffer : Nat}
    (hqueued : builder.queued hostname target buffer codec = .ok start) : start.CountsQueued := by
  obtain ⟨pipeline, -, rfl⟩ := Builder.exists_of_queued hqueued
  exact ⟨.new buffer, rfl, rfl⟩

/-- **Accounting.** Whatever transports answer, the books of a shipper tell of the events that it
handled and of nothing else. Only handling an event makes an entry. A queued shipper that does
nothing but handle events counts each datagram that is queued. -/
theorem books_reflect_outcomes (ids : IdSource)
    (hbuilt : builder.direct hostname target codec = .ok start ∨
      ∃ buffer, builder.queued hostname target buffer codec = .ok start) :
    (∀ outcomes shipper, start.Serves ids outcomes shipper → Reflects outcomes shipper.books) ∧
      (∀ steps, Reflects (start.handledOutcomes ids steps) (start.run ids steps).2.books) ∧
      (∀ (shipper : Shipper) (transport : Transport),
        (∀ event, (shipper.attemptBy transport ids event).2.books = shipper.books) ∧
        ∀ chunks, (shipper.sendBy transport chunks).2.books = shipper.books) ∧
      ∀ buffer, builder.queued hostname target buffer codec = .ok start →
        ∀ steps : List (Network × Step), (∀ s ∈ steps, isUncounted s.2 = false) →
          (start.run ids steps).2.counters.sent =
            UInt64.ofNat (start.run ids steps).2.accepted.length := by
  have hstart := reflects_of_built hbuilt
  refine ⟨?_, ?_, ?_, ?_⟩
  · intro outcomes shipper hserves
    exact hstart.of_serves hserves
  · intro steps
    exact hstart.of_serves (Serves.refl.run steps)
  · intro shipper transport
    exact ⟨fun event => books_sendSplitBy transport shipper _, fun chunks => rfl⟩
  · intro buffer hqueued steps hsteps
    exact ((countsQueued_of_queued hqueued).run ids hsteps).sent_eq

/-- One event is queued, one is blank, and one finds the queue full. -/
theorem three_events_are_booked :
    let builder : Builder := { sourceHost := some "relay" }
    let steps : List (Network × Step) :=
      [(.lossless, .ship (Event.new 1.5 "up")), (.lossless, .ship (Event.new 2.5 " ")),
        (.lossless, .ship (Event.new 3.5 "down"))]
    ∃ start, builder.queued (.name "") ⟨"127.0.0.1", 12201⟩ 1 .own = .ok start ∧
      let outcomes := start.handledOutcomes MessageId.ofNat steps
      let final := (start.run MessageId.ofNat steps).2
      sizes outcomes = [1] ∧
      failures outcomes =
        [.validation "short_message is empty", .transport Queue.full] ∧
      Reflects outcomes final.books ∧
      final.counters.sent = UInt64.ofNat final.accepted.length := by
  intro builder steps
  cases hbuilt : builder.queued (.name "") ⟨"127.0.0.1", 12201⟩ 1 .own with
  | error e => cases hbuilt
  | ok start =>
    obtain ⟨-, hrun, -, hqueued⟩ :=
      books_reflect_outcomes MessageId.ofNat (.inr ⟨1, hbuilt⟩)
    have hsteps : ∀ s ∈ steps, isUncounted s.2 = false := by simp [steps, isUncounted]
    refine ⟨start, rfl, ?_, ?_, hrun steps, hqueued 1 hbuilt steps hsteps⟩
    · cases hbuilt
      decide +kernel
    · cases hbuilt
      decide +kernel

end Gelf.Shipper
