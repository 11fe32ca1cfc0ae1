import Gelf.Proofs.Shipper.Books
import Gelf.Proofs.Shipper.Pipeline
import Gelf.Proofs.Trace.Fields
import Gelf.Trace.Circuit

/-!
# Circuits settle

A shipper whose faults are traced is called for what was traced elsewhere, once for each event, and
never for a report. An event calls the shipper at most once and a report not at all, so a circuit
comes to rest after two steps for each event, whatever fails on the way.
-/

namespace Gelf.Trace

open Delivery (Network Target)
open Shipper (failures)

/-- Whether the event is something else than a report. -/
def TraceEvent.isForeign (traced : TraceEvent) : Bool := traced.target ≠ diagnosticsTarget

theorem TraceEvent.isForeign_of_ofReport? {site : Site} {span : Option String} {sink : Sink}
    {clock : Float} {fault : Fault} {traced : TraceEvent}
    (h : ofReport? site span (.ofFault sink clock fault) = some traced) :
    traced.isForeign = false := by
  cases sink with
  | closure => cases h
  | stderr => cases h
  | tracing =>
    cases h
    rfl

namespace Layer

variable {layer : Layer} {clock : Float} {traced : TraceEvent} {event : Event}

theorem event?_eq_none_iff : layer.event? clock traced = none ↔ traced.isForeign = false := by
  rw [TraceEvent.isForeign, decide_eq_false_iff_not, Decidable.not_not]
  by_cases h : traced.target = diagnosticsTarget
  · rw [event?_of_target_eq h]
    exact iff_of_true rfl h
  · rw [event?_of_target_ne h]
    exact iff_of_false nofun h

/-- The name of its metadata keeps an event from being blank. -/
theorem blank_name_of_event? (h : layer.event? clock traced = some event)
    (hblank : Text.blank event.shortMessage = true) : Text.blank traced.name = true := by
  by_cases htarget : traced.target = diagnosticsTarget
  · rw [event?_of_target_eq htarget] at h
    cases h
  · rw [event?_of_target_ne htarget] at h
    have heq := Option.some.inj h
    split at heq
    · rw [← heq] at hblank
      exact hblank
    · rename_i hmessage
      rw [← heq] at hblank
      exact absurd hblank hmessage

end Layer

/-! ### One step -/

/-- A call of the shipper, with the other events that are pending. At most one report comes back,
and an event with a name is not found invalid. -/
structure Circuit.Calls (circuit : Circuit) (call : Call) (rest : List TraceEvent)
    (circuit' : Circuit) : Prop where
  calls : circuit'.calls = circuit.calls ++ [call]
  handled : circuit'.shipper.counters.handled = circuit.shipper.counters.handled + 1
  reported : circuit'.shipper.reported = circuit.shipper.reported ++ failures [call.result]
  pending : ∃ reports, circuit'.pending = reports ++ rest ∧ reports.length ≤ 1 ∧
    ∀ report ∈ reports, report.isForeign = false
  valid : ¬ Text.blank call.traced.name = true → ∀ fault, call.result = .error fault →
    fault.kind ≠ "validation"

/-- What a step can be. -/
inductive Circuit.Advances (circuit : Circuit) : Circuit → Prop
  | rests (h : circuit.pending = []) : Advances circuit circuit
  | skips {traced : TraceEvent} {rest : List TraceEvent} (h : circuit.pending = traced :: rest)
    (hreport : traced.isForeign = false) : Advances circuit { circuit with pending := rest }
  | calls {call : Call} {rest : List TraceEvent} {circuit' : Circuit}
    (h : circuit.pending = call.traced :: rest) (hforeign : call.traced.isForeign = true)
    (hcalls : circuit.Calls call rest circuit') : Advances circuit circuit'

section Step

variable {layer : Layer} {site : Site} {ids : IdSource} {moment : Moment} {circuit : Circuit}
  {traced : TraceEvent} {event : Event}

theorem length_failures_singleton_le (result : Except Fault Nat) :
    (failures [result]).length ≤ 1 := by
  cases result with
  | ok n => exact Nat.zero_le 1
  | error fault => exact Nat.le_refl 1

/-- An event is only found invalid when it is blank. -/
theorem kind_ne_of_attemptBy {shipper : Shipper} {fault : Fault}
    (hblank : ¬ Text.blank event.shortMessage = true)
    (h : (shipper.attemptBy moment.transport ids event).1 = .error fault) :
    fault.kind ≠ "validation" := by
  cases hchunks : shipper.pipeline.chunks (ids shipper.issued) event with
  | error fault' =>
    rw [Shipper.attemptBy_of_error hchunks] at h
    cases h
    rcases Pipeline.chunks_eq_error hchunks with ⟨hblank', -⟩ | ⟨-, e, -, rfl⟩ | ⟨payload, -, rfl⟩
    · exact absurd hblank' hblank
    · exact (by decide : "encoding" ≠ "validation")
    · exact (by decide : "message_too_large" ≠ "validation")
  | ok chunks =>
    rw [Shipper.attemptBy_of_ok hchunks] at h
    obtain ⟨error, rfl⟩ := moment.failsToSend _ _ _ fault h
    exact (by decide : "transport" ≠ "validation")

theorem calls_handle (circuit : Circuit) (rest : List TraceEvent)
    (hevent : layer.event? moment.clock traced = some event) :
    circuit.Calls ⟨traced, (circuit.shipper.attemptBy moment.transport ids event).1⟩ rest
      (Circuit.handle site ids moment { circuit with pending := rest } traced event) where
  calls := rfl
  handled := Shipper.handled_shipBy moment.transport ids circuit.shipper event
  reported := Shipper.reported_shipBy moment.transport ids circuit.shipper event
  pending := by
    refine ⟨_, rfl, ?_, ?_⟩
    · rw [Shipper.reported_shipBy, List.drop_left]
      exact (List.length_filterMap_le _ _).trans (length_failures_singleton_le _)
    · intro report hreport
      obtain ⟨fault, -, htraced⟩ := List.mem_filterMap.1 hreport
      exact TraceEvent.isForeign_of_ofReport? htraced
  valid hname fault hfault :=
    kind_ne_of_attemptBy (fun hblank => hname (Layer.blank_name_of_event? hevent hblank)) hfault

theorem advances_step (layer : Layer) (site : Site) (ids : IdSource) (circuit : Circuit)
    (moment : Moment) : circuit.Advances (circuit.step layer site ids moment) := by
  rw [Circuit.step]
  split
  · exact .rests (by assumption)
  · rename_i traced rest hpending
    dsimp only
    split
    · rename_i hnone
      exact .skips hpending (Layer.event?_eq_none_iff.1 hnone)
    · rename_i event hevent
      have hforeign : traced.isForeign = true := by
        rw [← Bool.not_eq_false, ← Layer.event?_eq_none_iff, hevent]
        exact nofun
      exact .calls hpending hforeign (calls_handle circuit rest hevent)

end Step

/-! ### Whole runs -/

namespace Circuit

variable {circuit circuit' : Circuit} {start : Shipper} {traces : List TraceEvent}

/-- How many steps a circuit can take at most: two for each event and one for each report. -/
def budget (circuit : Circuit) : Nat :=
  circuit.pending.length + (circuit.pending.filter TraceEvent.isForeign).length

theorem filter_isForeign_cons_of_report {traced : TraceEvent} (rest : List TraceEvent)
    (h : traced.isForeign = false) :
    (traced :: rest).filter TraceEvent.isForeign = rest.filter TraceEvent.isForeign := by
  apply List.filter_cons_of_neg
  rw [h]
  exact Bool.noConfusion

theorem filter_isForeign_of_reports {reports : List TraceEvent}
    (h : ∀ report ∈ reports, report.isForeign = false) :
    reports.filter TraceEvent.isForeign = [] := by
  rw [List.filter_eq_nil_iff]
  intro report hreport
  rw [h report hreport]
  exact Bool.noConfusion

theorem Advances.pending_eq_nil_or_budget_lt (h : circuit.Advances circuit') :
    circuit'.pending = [] ∨ circuit'.budget < circuit.budget := by
  cases h with
  | rests h => exact .inl h
  | @skips traced rest h hreport =>
    right
    rw [budget, budget, h, filter_isForeign_cons_of_report rest hreport, List.length_cons]
    dsimp only
    omega
  | @calls call rest _ h hforeign hcalls =>
    right
    obtain ⟨reports, hpending, hone, hreports⟩ := hcalls.pending
    rw [budget, budget, h, hpending, List.filter_cons_of_pos hforeign, List.filter_append,
      filter_isForeign_of_reports hreports]
    simp only [List.length_cons, List.length_append, List.length_nil]
    omega

/-- What holds of a circuit between two steps, from which `traces` were dispatched first. -/
structure Tracks (start : Shipper) (traces : List TraceEvent) (circuit : Circuit) : Prop where
  calls : circuit.calls.map Call.traced ++ circuit.pending.filter TraceEvent.isForeign =
    traces.filter TraceEvent.isForeign
  handled : circuit.shipper.counters.handled =
    start.counters.handled + UInt64.ofNat circuit.calls.length
  reported : circuit.shipper.reported =
    start.reported ++ failures (circuit.calls.map Call.result)
  valid : ∀ call ∈ circuit.calls, ¬ Text.blank call.traced.name = true →
    ∀ fault, call.result = .error fault → fault.kind ≠ "validation"

namespace Tracks

theorem new (start : Shipper) (traces : List TraceEvent) :
    Tracks start traces { shipper := start, pending := traces } where
  calls := List.nil_append _
  handled := by simp
  reported := (List.append_nil _).symm
  valid _ hcall := absurd hcall List.not_mem_nil

theorem advances (h : Tracks start traces circuit) (hstep : circuit.Advances circuit') :
    Tracks start traces circuit' := by
  cases hstep with
  | rests => exact h
  | @skips traced rest hpending hreport =>
    refine ⟨?_, h.handled, h.reported, h.valid⟩
    rw [← h.calls, hpending, filter_isForeign_cons_of_report rest hreport]
  | @calls call rest _ hpending hforeign hcalls =>
    obtain ⟨reports, hpending', -, hreports⟩ := hcalls.pending
    constructor
    · rw [← h.calls, hcalls.calls, hpending, hpending', List.filter_append,
        filter_isForeign_of_reports hreports, List.filter_cons_of_pos hforeign, List.map_append,
        List.append_assoc]
      rfl
    · rw [hcalls.handled, h.handled, hcalls.calls, List.length_append, UInt64.ofNat_add,
        UInt64.add_assoc]
      rfl
    · rw [hcalls.reported, h.reported, hcalls.calls, List.map_append, Shipper.failures_append,
        List.append_assoc]
      rfl
    · intro call' hcall'
      rw [hcalls.calls] at hcall'
      rcases List.mem_append.1 hcall' with hbefore | hlast
      · exact h.valid call' hbefore
      · rw [List.mem_singleton.1 hlast]
        exact hcalls.valid

theorem run (h : Tracks start traces circuit) (layer : Layer) (site : Site) (ids : IdSource)
    (moments : List Moment) : Tracks start traces (circuit.run layer site ids moments) := by
  induction moments generalizing circuit with
  | nil => exact h
  | cons moment moments ih => exact ih (h.advances (advances_step layer site ids circuit moment))

end Tracks

theorem run_of_pending_eq_nil (h : circuit.pending = []) (layer : Layer) (site : Site)
    (ids : IdSource) (moments : List Moment) : circuit.run layer site ids moments = circuit := by
  have hstep (moment : Moment) : circuit.step layer site ids moment = circuit := by
    rw [step, h]
  induction moments with
  | nil => rfl
  | cons moment moments ih =>
    calc circuit.run layer site ids (moment :: moments)
      _ = (circuit.step layer site ids moment).run layer site ids moments := rfl
      _ = circuit.run layer site ids moments := by rw [hstep]
      _ = circuit := ih

/-- A circuit is at rest when there were as many moments as its budget. -/
theorem pending_run_eq_nil (layer : Layer) (site : Site) (ids : IdSource) (circuit : Circuit)
    (moments : List Moment) (henough : circuit.budget ≤ moments.length) :
    (circuit.run layer site ids moments).pending = [] := by
  induction moments generalizing circuit with
  | nil =>
    rw [budget, List.length_nil] at henough
    have hnone : circuit.pending.length = 0 := by omega
    exact List.length_eq_zero_iff.1 hnone
  | cons moment moments ih =>
    rcases (advances_step layer site ids circuit moment).pending_eq_nil_or_budget_lt with
      hnil | hless
    · have hrest := run_of_pending_eq_nil hnil layer site ids moments
      exact (congrArg pending hrest).trans hnil
    · rw [List.length_cons] at henough
      exact ih _ (by omega)

end Circuit

/-- **Circuits settle.** Whatever was recorded and whatever fails to be sent, a circuit comes to rest
within two steps for each event. By then the shipper was called once for each event that is no
report, in their order, and never for a report, although all reports were dispatched as well. No
event with a name was found invalid. -/
theorem circuit_settles (layer : Layer) (site : Site) (ids : IdSource) (shipper : Shipper)
    (traces : List TraceEvent) (moments : List Moment)
    (henough : 2 * traces.length ≤ moments.length) :
    let final := Circuit.run layer site ids { shipper, pending := traces } moments
    final.pending = [] ∧
      final.calls.map Call.traced = traces.filter TraceEvent.isForeign ∧
      final.shipper.counters.handled =
        shipper.counters.handled + UInt64.ofNat (traces.filter TraceEvent.isForeign).length ∧
      final.shipper.reported = shipper.reported ++ failures (final.calls.map Call.result) ∧
      ∀ call ∈ final.calls, ¬ Text.blank call.traced.name = true →
        ∀ fault, call.result = .error fault → fault.kind ≠ "validation" := by
  intro final
  have hbudget : Circuit.budget { shipper, pending := traces } ≤ moments.length := by
    have hforeign := List.length_filter_le TraceEvent.isForeign traces
    calc traces.length + (traces.filter TraceEvent.isForeign).length ≤ 2 * traces.length := by
          omega
      _ ≤ moments.length := henough
  have hrest : final.pending = [] := Circuit.pending_run_eq_nil layer site ids _ moments hbudget
  have htracks := (Circuit.Tracks.new shipper traces).run layer site ids moments
  have hcalls : final.calls.map Call.traced = traces.filter TraceEvent.isForeign := by
    rw [← htracks.calls, hrest]
    exact (List.append_nil _).symm
  refine ⟨hrest, hcalls, ?_, htracks.reported, htracks.valid⟩
  rw [← hcalls, List.length_map]
  exact htracks.handled

/-- An event is dropped, and its report is dispatched as well. The shipper is not called again. -/
theorem dropped_event_is_reported_once :
    let failing : Network :=
      { Network.lossless with
        outcome _ _ _ := .failed { kind := .networkUnreachable, text := "unreachable" } }
    let builder : Builder := { sourceHost := some "relay", sink := .tracing }
    let target : Target := ⟨"127.0.0.1", 12201⟩
    let traced : TraceEvent :=
      { name := "event x", target := "app", level := .error, fields := [("message", .text "down")] }
    let site : Site := { name := "event report" }
    let moment := Moment.onNetwork 1.5 failing target
    ∃ shipper, builder.direct (.name "") target .own = .ok shipper ∧
      let start : Circuit := { shipper, pending := [traced] }
      let after := start.step {} site MessageId.ofNat moment
      let final := start.run {} site MessageId.ofNat [moment, moment]
      after.pending.map TraceEvent.target = [diagnosticsTarget] ∧
      final.pending = [] ∧
      final.calls.map Call.traced = [traced] ∧
      final.shipper.counters.handled = 1 ∧
      final.shipper.reported =
        [.transport { kind := .networkUnreachable, text := "unreachable" }] := by
  intro failing builder target traced site moment
  cases hbuilt : builder.direct (.name "") target .own with
  | error e => cases hbuilt
  | ok shipper =>
    obtain ⟨hrest, hcalls, hhandled, -⟩ := circuit_settles {} site MessageId.ofNat shipper
      [traced] [moment, moment] (Nat.le_refl 2)
    refine ⟨shipper, rfl, ?_, hrest, hcalls, ?_, ?_⟩
    · cases hbuilt
      decide +kernel
    · cases hbuilt
      exact hhandled
    · cases hbuilt
      decide +kernel

end Gelf.Trace
