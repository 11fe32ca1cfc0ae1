import Gelf.Proofs.Calls
import Gelf.Proofs.Trace.Fields

/-!
# The slots of traced events

Fields are recorded one after another, and each may be of any kind. What comes of them is told slot
by slot: the last field of a slot fills it, where a level and a timestamp are passed over if they
cannot be used. So fields of different slots can be recorded in any order.
-/

namespace Gelf.Trace

open Json (Value)

/-! ### What a recorded value says -/

namespace Recorded

/-- The value of a field for a recorded value. Truth values and floats that are not finite are kept
by their text. -/
inductive Becomes : Recorded → Value → Prop
  | text (s : String) : Becomes (.text s) (.string s)
  | signed (n : Int64) : Becomes (.signed n) (.ofInteger (.ofInt64 n))
  | unsigned (n : UInt64) : Becomes (.unsigned n) (.ofInteger (.ofUInt64 n))
  | real {x : Float} (h : x.isFinite = true) : Becomes (.real x) (.number (.real ⟨x, h⟩))
  | notFinite {x : Float} (h : x.isFinite = false) :
    Becomes (.real x) (.string (Decimal.plainText x))
  | bool (b : Bool) : Becomes (.bool b) (.string (Json.boolText b))

theorem becomes_value (recorded : Recorded) : recorded.Becomes recorded.value := by
  cases recorded with
  | text s => exact .text s
  | signed n => exact .signed n
  | unsigned n => exact .unsigned n
  | real x =>
    rw [value, floatValue, FiniteFloat.ofFloat?]
    by_cases h : x.isFinite = true
    · rw [dif_pos h]
      exact .real h
    · rw [dif_neg h]
      exact .notFinite (Bool.eq_false_iff.2 h)
  | bool b => exact .bool b

theorem Becomes.value_eq {recorded : Recorded} {v : Value} (h : recorded.Becomes v) :
    recorded.value = v := by
  cases h with
  | text s => rfl
  | signed n => rfl
  | unsigned n => rfl
  | real h => rw [value, floatValue, FiniteFloat.ofFloat?, dif_pos h]
  | notFinite h => rw [value, floatValue, FiniteFloat.ofFloat?, dif_neg (Bool.eq_false_iff.1 h)]
  | bool b => rfl

theorem value_eq_iff {recorded : Recorded} {v : Value} :
    recorded.value = v ↔ recorded.Becomes v :=
  ⟨fun h => h ▸ recorded.becomes_value, Becomes.value_eq⟩

end Recorded

/-! ### One slot -/

namespace EventSlot

def names : EventSlot → List String
  | .message => ["message", "short_message"]
  | .fullMessage => ["full_message"]
  | .host => ["host"]
  | .level => ["level"]
  | .timestamp => ["timestamp"]

theorem ofName?_eq_some_iff {name : String} {slot : EventSlot} :
    ofName? name = some slot ↔ name ∈ slot.names := by
  unfold ofName?
  cases slot <;> grind [names]

end EventSlot

def inSlot? (slot : EventSlot) (field : String × Recorded) : Option Recorded :=
  if field.1 ∈ slot.names then some field.2 else none

/-- What is recorded in a slot, in order. -/
def recordedIn (slot : EventSlot) (fields : List (String × Recorded)) : List Recorded :=
  fields.filterMap (inSlot? slot)

section Parts

/- A part of an event that one slot fills, and what a recorded value in the slot makes of it. -/
variable {β : Type} (part : Event → Option β) (slot : EventSlot) (effect : Recorded → Option β)
  (hfill : ∀ event recorded (other : EventSlot), part (other.fill event recorded) =
    if other = slot then (effect recorded).or (part event) else part event)
  (hfield : ∀ event name value, part (Event.withField event name value) = part event)

include hfill hfield

/-- A recorded field changes the part if it is in the slot and can be used. -/
theorem part_record (event : Event) (field : String × Recorded) :
    part (record event field) = ((inSlot? slot field).bind effect).or (part event) := by
  obtain ⟨name, recorded⟩ := field
  rw [inSlot?]
  cases hname : EventSlot.ofName? name with
  | none =>
    have hnot : name ∉ slot.names := by
      rw [← EventSlot.ofName?_eq_some_iff, hname]
      nofun
    rw [record_of_no_slot event recorded hname, hfield, if_neg hnot]
    rfl
  | some other =>
    have hmem : name ∈ slot.names ↔ other = slot := by
      rw [← EventSlot.ofName?_eq_some_iff, hname, Option.some_inj]
    simp only [record_of_slot event recorded hname, hfill, hmem]
    split <;> rfl

/-- The part is what was last recorded in the slot and could be used. -/
theorem part_foldl_record (fields : List (String × Recorded)) (event : Event) :
    part (fields.foldl record event) =
      ((recordedIn slot fields).filterMap effect).getLast?.or (part event) := by
  rw [part_foldl part (part_record part slot effect hfill hfield), recordedIn,
    List.filterMap_filterMap]

end Parts

/-- In a slot for texts every recorded value can be used. -/
theorem text_foldl_record (part : Event → Option String) (slot : EventSlot)
    (hfill : ∀ event recorded (other : EventSlot), part (other.fill event recorded) =
      if other = slot then (some recorded.toText).or (part event) else part event)
    (hfield : ∀ event name value, part (Event.withField event name value) = part event)
    (fields : List (String × Recorded)) (event : Event) :
    part (fields.foldl record event) =
      ((recordedIn slot fields).getLast?.map Recorded.toText).or (part event) := by
  rw [part_foldl_record part slot _ hfill hfield, List.filterMap_eq_map', List.getLast?_map]

/-! ### Metadata -/

namespace Layer

/-- The metadata of a traced event that the switches of a layer let through. -/
def kept? (layer : Layer) (traced : TraceEvent) (name : String) : Option Value :=
  if name = "target" then some (.string traced.target)
  else if name = "span" then if layer.spans then traced.span.map .string else none
  else if name = "file" then if layer.fileNames then traced.file.map .string else none
  else if name = "line" then
    if layer.lineNumbers then traced.line.map fun n => .ofInteger (.ofUInt64 n.toUInt64) else none
  else if name = "module_path" then
    if layer.modulePaths then traced.modulePath.map .string else none
  else none

theorem metadata?_eq_kept? (layer : Layer) (traced : TraceEvent) (name : String) :
    layer.metadata? traced name = layer.kept? traced name := by
  have hlookup {α : Type} (wanted : Bool) (key : String) (data : Option α) (f : α → Value) :
      (if wanted then (data.map fun x => (key, f x)).toList else []).reverse.lookup name =
        if name = key then if wanted then data.map f else none else none := by
    cases wanted <;> cases data <;> simp [lookup_cons]
  rw [metadata?, FieldMap.get?_ofList, metadata]
  have htarget : [("target", Value.string traced.target)].reverse.lookup name =
      if name = "target" then some (.string traced.target) else none :=
    lookup_cons name "target" _ []
  simp only [List.reverse_append, List.lookup_append, hlookup, htarget, kept?]
  -- the names are different, so at most one of the lists has the name
  grind

end Layer

/-! ### Slots of the event -/

section

variable (fields : List (String × Recorded)) (event : Event)

theorem shortMessage_foldl_record : (fields.foldl record event).shortMessage =
    ((recordedIn .message fields).getLast?.map Recorded.toText).getD event.shortMessage := by
  have hfill (event : Event) (recorded : Recorded) (other : EventSlot) :
      some (other.fill event recorded).shortMessage =
        if other = .message then (some recorded.toText).or (some event.shortMessage)
        else some event.shortMessage := by
    cases other <;> rfl
  rw [← Option.some_inj, text_foldl_record (fun event => some event.shortMessage) .message hfill
    (fun _ _ _ => rfl), Option.or_some]

theorem fullMessage_foldl_record : (fields.foldl record event).fullMessage =
    ((recordedIn .fullMessage fields).getLast?.map Recorded.toText).or event.fullMessage := by
  have hfill (event : Event) (recorded : Recorded) (other : EventSlot) :
      (other.fill event recorded).fullMessage =
        if other = .fullMessage then (some recorded.toText).or event.fullMessage
        else event.fullMessage := by
    cases other <;> rfl
  exact text_foldl_record Event.fullMessage .fullMessage hfill (fun _ _ _ => rfl) fields event

theorem host_foldl_record : (fields.foldl record event).host =
    ((recordedIn .host fields).getLast?.map Recorded.toText).or event.host := by
  have hfill (event : Event) (recorded : Recorded) (other : EventSlot) :
      (other.fill event recorded).host =
        if other = .host then (some recorded.toText).or event.host else event.host := by
    cases other <;> rfl
  exact text_foldl_record Event.host .host hfill (fun _ _ _ => rfl) fields event

theorem level_foldl_record : (fields.foldl record event).level =
    ((recordedIn .level fields).filterMap Recorded.level?).getLast?.or event.level := by
  have hfill (event : Event) (recorded : Recorded) (other : EventSlot) :
      (other.fill event recorded).level =
        if other = .level then recorded.level?.or event.level else event.level := by
    cases other <;> rfl
  exact part_foldl_record Event.level .level _ hfill (fun _ _ _ => rfl) fields event

theorem timestamp_foldl_record : (fields.foldl record event).timestamp =
    ((recordedIn .timestamp fields).filterMap Recorded.time?).getLast?.getD event.timestamp := by
  have hfill (event : Event) (recorded : Recorded) (other : EventSlot) :
      some (other.fill event recorded).timestamp =
        if other = .timestamp then recorded.time?.or (some event.timestamp)
        else some event.timestamp := by
    cases other with
    | timestamp => exact Option.or_some.symm
    | _ => rfl
  rw [← Option.some_inj, part_foldl_record (fun event => some event.timestamp) .timestamp _ hfill
    (fun _ _ _ => rfl), Option.or_some]

end

/-! ### The event -/

/-- What a layer makes of a traced event, slot by slot. -/
structure Fills (layer : Layer) (clock : Float) (traced : TraceEvent) (event : Event) : Prop where
  shortMessage : event.shortMessage =
    (((recordedIn .message traced.fields).getLast?.map Recorded.toText).filter
      fun text => !Text.blank text).getD traced.name
  fullMessage : event.fullMessage =
    (recordedIn .fullMessage traced.fields).getLast?.map Recorded.toText
  host : event.host = (recordedIn .host traced.fields).getLast?.map Recorded.toText
  level : event.level = some
    (((recordedIn .level traced.fields).filterMap Recorded.level?).getLast?.getD
      (Severity.ofTrace traced.level).number)
  timestamp : event.timestamp =
    ((recordedIn .timestamp traced.fields).filterMap Recorded.time?).getLast?.getD clock
  fields : ∀ name value, event.fields.get? name = some value ↔
    (∃ recorded, lastRecorded? traced.fields name = some recorded ∧ recorded.Becomes value) ∨
      lastRecorded? traced.fields name = none ∧ layer.kept? traced name = some value

/-- The fields fill the same slots with the same values in the same order, and the last value of
every other name is the same. -/
structure SameSlots (fields others : List (String × Recorded)) : Prop where
  slots : ∀ slot, recordedIn slot fields = recordedIn slot others
  names : ∀ name, lastRecorded? fields name = lastRecorded? others name

/-- A field in a slot for which it does not do. -/
def Unusable (field : String × Recorded) : Prop :=
  field.1 = "level" ∧ field.2.level? = none ∨ field.1 = "timestamp" ∧ field.2.time? = none

theorem record_of_unusable {field : String × Recorded} (h : Unusable field) (event : Event) :
    record event field = event := by
  obtain ⟨name, recorded⟩ := field
  rcases h with ⟨rfl, hnone⟩ | ⟨rfl, hnone⟩
  · have hnone : recorded.level? = none := hnone
    rw [record_of_slot event recorded rfl, EventSlot.fill, hnone]
    rfl
  · have hnone : recorded.time? = none := hnone
    rw [record_of_slot event recorded rfl, EventSlot.fill, hnone]
    rfl

variable {fields others : List (String × Recorded)} {layer : Layer} {clock : Float}
  {traced : TraceEvent} {event : Event}

theorem SameSlots.foldl_record_eq (h : SameSlots fields others) (event : Event) :
    fields.foldl record event = others.foldl record event := by
  ext1
  · rw [timestamp_foldl_record, timestamp_foldl_record, h.slots]
  · rw [level_foldl_record, level_foldl_record, h.slots]
  · rw [shortMessage_foldl_record, shortMessage_foldl_record, h.slots]
  · rw [fullMessage_foldl_record, fullMessage_foldl_record, h.slots]
  · rw [host_foldl_record, host_foldl_record, h.slots]
  · ext1 name
    rw [get?_foldl_record, get?_foldl_record, h.names]

theorem event?_congr
    (h : ∀ event, fields.foldl record event = others.foldl record event) :
    layer.event? clock { traced with fields } =
      layer.event? clock { traced with fields := others } := by
  simp only [Layer.event?, h]
  rfl

/-- The event with its message, or with the name of its metadata in the place of a blank one. -/
theorem eq_of_event?_eq_some (h : layer.event? clock traced = some event) :
    event = { layer.recordedEvent clock traced with
      shortMessage := if Text.blank (layer.recordedEvent clock traced).shortMessage
        then traced.name else (layer.recordedEvent clock traced).shortMessage } := by
  by_cases htarget : traced.target = diagnosticsTarget
  · rw [Layer.event?_of_target_eq htarget] at h
    cases h
  · rw [Layer.event?_of_target_ne htarget] at h
    rw [← Option.some.inj h]
    split <;> rfl

theorem fills_of_event? (h : layer.event? clock traced = some event) :
    Fills layer clock traced event := by
  have hfields := Layer.get?_fields_of_event? h
  have hevent := eq_of_event?_eq_some h
  refine ⟨?_, ?_, ?_, ?_, ?_, fun name value => ?_⟩
  · rw [hevent]
    dsimp only
    rw [Layer.recordedEvent, shortMessage_foldl_record]
    cases (recordedIn .message traced.fields).getLast?.map Recorded.toText with
    | none => rfl
    | some text => cases hblank : Text.blank text <;> simp [Option.filter, hblank]
  · rw [hevent]
    exact (fullMessage_foldl_record _ _).trans Option.or_none
  · rw [hevent]
    exact (host_foldl_record _ _).trans Option.or_none
  · rw [hevent]
    exact (level_foldl_record _ _).trans Option.or_some
  · rw [hevent]
    exact timestamp_foldl_record _ _
  · rw [hfields, Layer.metadata?_eq_kept?]
    cases lastRecorded? traced.fields name with
    | none => simp
    | some recorded => simp [Recorded.value_eq_iff]

/-- **Traced events.** A traced event that is no report of a shipper becomes the event that its
fields say, slot by slot. It stays the same if fields of different slots are recorded in another
order, and if a level or a timestamp that cannot be used is left out. -/
theorem traced_event_fills_slots (layer : Layer) (clock : Float) (traced : TraceEvent)
    (htarget : traced.target ≠ diagnosticsTarget) :
    ∃ event, layer.event? clock traced = some event ∧ Fills layer clock traced event ∧
      (∀ others, SameSlots traced.fields others →
        layer.event? clock { traced with fields := others } = some event) ∧
      ∀ before field after, traced.fields = before ++ field :: after → Unusable field →
        layer.event? clock { traced with fields := before ++ after } = some event := by
  obtain ⟨event, hevent⟩ : ∃ event, layer.event? clock traced = some event :=
    ⟨_, Layer.event?_of_target_ne htarget⟩
  refine ⟨event, hevent, fills_of_event? hevent, fun others h => ?_,
    fun before field after hfields hunusable => ?_⟩
  · rw [← hevent]
    exact event?_congr fun event => (h.foldl_record_eq event).symm
  · have hfold (event : Event) :
        (before ++ after).foldl record event = traced.fields.foldl record event := by
      rw [hfields, List.foldl_append, List.foldl_append, List.foldl_cons,
        record_of_unusable hunusable]
    rw [← hevent]
    exact event?_congr hfold

/-- A level that cannot be read is passed over, a blank message gives way to the name, and a flag
becomes a text. -/
theorem unreadable_level_is_passed_over :
    let traced : TraceEvent :=
      { name := "event x", target := "app", level := .info, file := some "main"
        fields := [("level", .text " 3 "), ("ok", .bool true), ("message", .text " "),
          ("level", .text "high"), ("file", .signed 7)] }
    let layer : Layer := { spans := false }
    ∃ event, layer.event? 1.5 traced = some event ∧ event.shortMessage = "event x" ∧
      event.level = some 3 ∧ event.timestamp = 1.5 ∧
      event.fields.get? "ok" = some (.string "true") ∧
      layer.event? 1.5 { traced with
        fields := [("file", .signed 7), ("message", .text " "), ("level", .text " 3 "),
          ("level", .text "high"), ("ok", .bool true)] } = some event := by
  intro traced layer
  obtain ⟨event, hevent, hfills, horder, -⟩ :=
    traced_event_fills_slots layer 1.5 traced (by decide)
  refine ⟨event, hevent, ?_, ?_, ?_, ?_, horder _ ⟨?_, ?_⟩⟩
  · exact hfills.shortMessage
  · exact hfills.level
  · exact hfills.timestamp
  · exact (hfills.fields "ok" _).2 (.inl ⟨.bool true, rfl, .bool true⟩)
  · intro slot
    cases slot <;> rfl
  · intro name
    simp only [traced, lastRecorded?, EventSlot.ofName?, List.reverse_cons, List.reverse_nil,
      List.nil_append, List.cons_append, lookup_cons, List.lookup_nil]
    grind

end Gelf.Trace
