import Gelf.Proofs.Encoder.Fields
import Gelf.Trace.Layer

/-!
# Fields of traced events

What is recorded under the name of a slot fills the slot and makes no field. Everything else becomes
a field and takes the place of metadata with the same name. But the encoder cleans names only later,
so a field whose name has an underscore before it still meets the metadata without one.
-/

namespace Gelf.Trace

open Json (Fields Value)

/-! ### What is recorded -/

namespace Recorded

/-- A recorded value as the value of a field. -/
def value : Recorded → Value
  | .text s => .string s
  | .signed n => .ofInteger (.ofInt64 n)
  | .unsigned n => .ofInteger (.ofUInt64 n)
  | .real x => floatValue x
  | .bool b => .string (Json.boolText b)

def toText : Recorded → String
  | .text s => s
  | .signed n => String.ofList (Json.integerChars n.toInt)
  | .unsigned n => String.ofList (Json.integerChars n.toNat)
  | .real x => Decimal.plainText x
  | .bool b => Json.boolText b

/-- The level that a recorded value says. -/
def level? : Recorded → Option Int
  | .text s => Decimal.readInt64? (Text.trim s)
  | .signed n => some n.toInt
  | .unsigned n => some (min n.toNat maxLevel)
  | .real _ => none
  | .bool _ => none

/-- The time that a recorded value says. -/
def time? : Recorded → Option Float
  | .text s => Decimal.readFloat? (Text.trim s)
  | .signed n => some (Json.Integer.ofInt64 n).toFloat
  | .unsigned n => some (Json.Integer.ofUInt64 n).toFloat
  | .real x => some x
  | .bool _ => none

end Recorded

theorem fieldValue?_floatValue (x : Float) : fieldValue? (floatValue x) = some (floatValue x) := by
  rw [floatValue]
  split <;> rfl

theorem Recorded.fieldValue?_value (recorded : Recorded) :
    fieldValue? recorded.value = some recorded.value := by
  cases recorded with
  | text s => rfl
  | signed n => rfl
  | unsigned n => rfl
  | real x => exact fieldValue?_floatValue x
  | bool b => rfl

/-- The event with a recorded value in a slot. -/
def EventSlot.fill (event : Event) (recorded : Recorded) : EventSlot → Event
  | .message => { event with shortMessage := recorded.toText }
  | .fullMessage => event.withFullMessage recorded.toText
  | .host => event.withHost recorded.toText
  | .level => { event with level := recorded.level?.or event.level }
  | .timestamp => { event with timestamp := recorded.time?.getD event.timestamp }

variable {name : String} {slot : EventSlot}

theorem record_of_no_slot (event : Event) (recorded : Recorded)
    (h : EventSlot.ofName? name = none) :
    record event (name, recorded) = event.withField name recorded.value := by
  cases recorded with
  | text s => simp only [record, recordText, h, Recorded.value]
  | signed n => simp only [record, recordInteger, h, Recorded.value]
  | unsigned n => simp only [record, recordInteger, h, Recorded.value]
  | real x => simp only [record, recordFloat, h, Recorded.value]
  | bool b => simp only [record, recordBool, recordText, h, Recorded.value]

theorem recordText_of_slot (event : Event) (s : String) (h : EventSlot.ofName? name = some slot) :
    recordText event name s = slot.fill event (.text s) := by
  rw [recordText, h]
  cases slot with
  | message => rfl
  | fullMessage => rfl
  | host => rfl
  | level =>
    dsimp only
    rw [EventSlot.fill, Recorded.level?]
    cases Decimal.readInt64? (Text.trim s) <;> rfl
  | timestamp =>
    dsimp only
    rw [EventSlot.fill, Recorded.time?]
    cases Decimal.readFloat? (Text.trim s) <;> rfl

/-- What is recorded under the name of a slot fills the slot if it can be used. -/
theorem record_of_slot (event : Event) (recorded : Recorded)
    (h : EventSlot.ofName? name = some slot) :
    record event (name, recorded) = slot.fill event recorded := by
  cases recorded with
  | text s => exact recordText_of_slot event s h
  | signed n =>
    simp only [record, recordInteger, h, recordText_of_slot event _ h]
    have hmin : min n.toInt maxLevel = n.toInt := by
      have hlt := n.toInt_lt
      rw [maxLevel]
      omega
    cases slot with
    | level => exact congrArg event.withLevel hmin
    | _ => rfl
  | unsigned n =>
    simp only [record, recordInteger, h, recordText_of_slot event _ h]
    cases slot <;> rfl
  | real x =>
    simp only [record, recordFloat, h, recordText_of_slot event _ h]
    cases slot <;> rfl
  | bool b =>
    simp only [record, recordBool, h, recordText_of_slot event _ h]
    cases slot <;> rfl

theorem fields_record_of_slot (event : Event) (recorded : Recorded)
    (h : EventSlot.ofName? name = some slot) :
    (record event (name, recorded)).fields = event.fields := by
  rw [record_of_slot event recorded h]
  cases slot <;> rfl

/-! ### The fields of an event -/

/-- The last value that was recorded under a name, unless it is the name of a slot. -/
def lastRecorded? (fields : List (String × Recorded)) (name : String) : Option Recorded :=
  if (EventSlot.ofName? name).isSome then none else fields.reverse.lookup name

theorem lastRecorded?_isSome_iff {fields : List (String × Recorded)} {name : String} :
    (lastRecorded? fields name).isSome = true ↔
      EventSlot.ofName? name = none ∧ ∃ recorded, (name, recorded) ∈ fields := by
  rw [lastRecorded?]
  cases hslot : EventSlot.ofName? name with
  | some slot => exact iff_of_false nofun nofun
  | none =>
    rw [if_neg Bool.noConfusion, List.lookup_isSome_iff]
    simp

theorem lastRecorded?_cons (field : String × Recorded) (fields : List (String × Recorded))
    (name : String) :
    lastRecorded? (field :: fields) name =
      (lastRecorded? fields name).or (lastRecorded? [field] name) := by
  rw [lastRecorded?, lastRecorded?, lastRecorded?]
  split
  · rfl
  · rw [List.reverse_cons, List.lookup_append]
    rfl

theorem get?_record (event : Event) (field : String × Recorded) (name : String) :
    (record event field).fields.get? name =
      ((lastRecorded? [field] name).map Recorded.value).or (event.fields.get? name) := by
  obtain ⟨key, recorded⟩ := field
  cases hslot : EventSlot.ofName? key with
  | none =>
    rw [record_of_no_slot event recorded hslot, Event.withField, FieldMap.get?_insert]
    by_cases hkey : name = key
    · subst hkey
      simp [lastRecorded?, hslot]
    · simp [lastRecorded?, lookup_cons, hkey]
  | some slot =>
    rw [fields_record_of_slot event recorded hslot]
    by_cases hkey : name = key
    · subst hkey
      simp [lastRecorded?, hslot]
    · simp [lastRecorded?, lookup_cons, hkey]

/-- Recorded values take the place of what was there. -/
theorem get?_foldl_record (event : Event) (fields : List (String × Recorded)) (name : String) :
    (fields.foldl record event).fields.get? name =
      ((lastRecorded? fields name).map Recorded.value).or (event.fields.get? name) := by
  induction fields generalizing event with
  | nil => simp [lastRecorded?]
  | cons field fields ih =>
    rw [List.foldl_cons, ih, get?_record, lastRecorded?_cons field fields, Option.map_or, Option.or_assoc]

namespace Layer

/-- The metadata of a traced event that a layer is set to keep, by name. -/
def metadata? (layer : Layer) (traced : TraceEvent) (name : String) : Option Value :=
  (FieldMap.ofList (layer.metadata traced)).get? name

def metadataNames : List String := ["target", "span", "file", "line", "module_path"]

theorem mem_metadata {layer : Layer} {traced : TraceEvent} {name : String} {value : Value}
    (h : (name, value) ∈ layer.metadata traced) :
    name ∈ metadataNames ∧ fieldValue? value = some value := by
  have hkept {α : Type} {wanted : Bool} {data : Option α} {field : α → String × Value}
      (hfield : ∀ x, (field x).1 ∈ metadataNames ∧ fieldValue? (field x).2 = some (field x).2)
      (h : (name, value) ∈ if wanted then (data.map field).toList else []) :
      name ∈ metadataNames ∧ fieldValue? value = some value := by
    cases wanted with
    | false => cases h
    | true =>
      cases data with
      | none => cases h
      | some x =>
        have heq : (name, value) = field x := List.mem_singleton.1 h
        have hx := hfield x
        rw [← heq] at hx
        exact hx
  have htexts {key : String} (hkey : key ∈ metadataNames) (s : String) :
      key ∈ metadataNames ∧ fieldValue? (.string s) = some (.string s) := ⟨hkey, rfl⟩
  have hline : "line" ∈ metadataNames := by decide
  simp only [metadata, List.mem_append] at h
  rcases h with (((htarget | hspan) | hfile) | hnumber) | hmodule
  · cases List.mem_singleton.1 htarget
    exact htexts (by decide) _
  · exact hkept (htexts (by decide)) hspan
  · exact hkept (htexts (by decide)) hfile
  · exact hkept (fun n => ⟨hline, rfl⟩) hnumber
  · exact hkept (htexts (by decide)) hmodule

theorem mem_of_metadata? {layer : Layer} {traced : TraceEvent} {name : String} {value : Value}
    (h : layer.metadata? traced name = some value) : (name, value) ∈ layer.metadata traced :=
  FieldMap.mem_of_get?_ofList h

/-- Names of metadata come behind the same names with an underscore before them, and these are no
names of metadata. -/
theorem of_metadata? {layer : Layer} {traced : TraceEvent} {n : String} {value : Value}
    (h : layer.metadata? traced n = some value) :
    "_" ++ n < n ∧ fieldValue? value = some value := by
  obtain ⟨hname, hvalue⟩ := mem_metadata (mem_of_metadata? h)
  have hbehind : ∀ name ∈ metadataNames, "_" ++ name < name := by decide
  exact ⟨hbehind n hname, hvalue⟩

theorem metadata?_eq_none (layer : Layer) (traced : TraceEvent) {name : String}
    (h : name ∉ metadataNames) : layer.metadata? traced name = none := by
  rw [Option.eq_none_iff_forall_ne_some]
  intro value hvalue
  exact h (mem_metadata (mem_of_metadata? hvalue)).1

theorem metadata?_append (layer : Layer) (traced : TraceEvent) (n : String) :
    layer.metadata? traced ("_" ++ n) = none := by
  have hplain : ∀ name ∈ metadataNames, hasUnderscore name = false := by decide
  apply metadata?_eq_none
  intro hmem
  have hname := hplain _ hmem
  rw [hasUnderscore_append] at hname
  cases hname

/-- The event before its message is looked at. -/
def recordedEvent (layer : Layer) (clock : Float) (traced : TraceEvent) : Event :=
  traced.fields.foldl record
    { (Event.new clock "").withLevel (Severity.ofTrace traced.level).number with
      fields := FieldMap.ofList (layer.metadata traced) }

variable {layer : Layer} {clock : Float} {traced : TraceEvent} {event : Event}

theorem event?_of_target_eq (h : traced.target = diagnosticsTarget) :
    layer.event? clock traced = none := if_pos h

theorem event?_of_target_ne (h : traced.target ≠ diagnosticsTarget) :
    layer.event? clock traced =
      some (if Text.blank (layer.recordedEvent clock traced).shortMessage then
        { layer.recordedEvent clock traced with shortMessage := traced.name }
      else layer.recordedEvent clock traced) := if_neg h

theorem fields_of_event? (h : layer.event? clock traced = some event) :
    event.fields = (layer.recordedEvent clock traced).fields := by
  by_cases htarget : traced.target = diagnosticsTarget
  · rw [event?_of_target_eq htarget] at h
    cases h
  · rw [event?_of_target_ne htarget] at h
    rw [← Option.some.inj h]
    split <;> rfl

/-- A field of an event is what was recorded last under its name, or else the metadata. -/
theorem get?_fields_of_event? (h : layer.event? clock traced = some event) (name : String) :
    event.fields.get? name =
      ((lastRecorded? traced.fields name).map Recorded.value).or
        (layer.metadata? traced name) := by
  rw [fields_of_event? h, recordedEvent, get?_foldl_record]
  rfl

/-- What is sent for a spelling is what the event holds, since nothing that it holds is null. -/
theorem sent?_fields_of_event? (h : layer.event? clock traced = some event) (name : String) :
    sent? event.fields name =
      ((lastRecorded? traced.fields name).map Recorded.value).or
        (layer.metadata? traced name) := by
  rw [sent?, get?_fields_of_event? h]
  cases lastRecorded? traced.fields name with
  | some recorded => exact recorded.fieldValue?_value
  | none =>
    cases hmetadata : layer.metadata? traced name with
    | some value => exact (of_metadata? hmetadata).2
    | none => rfl

end Layer

section Wire

variable {layer : Layer} {clock : Float} {traced : TraceEvent} {event : Event} {encoder : Encoder}
  {r : Record} {n : String}

/-- Under a name on the wire, the later spelling that the event holds is sent, and the metadata can
only stand in for the spelling without an underscore. -/
theorem get?_additional (hname : IsWireName n) (hplain : hasUnderscore n = false)
    (hevent : layer.event? clock traced = some event) (hrecord : encoder.record event = .ok r) :
    r.additional.get? ("_" ++ n) =
      (let plain := ((lastRecorded? traced.fields n).map Recorded.value).or
        (layer.metadata? traced n)
      let prefixed := (lastRecorded? traced.fields ("_" ++ n)).map Recorded.value
      if n < "_" ++ n then prefixed.or plain else plain.or prefixed).or
        (wireValue? encoder.fields n) := by
  have hprefixed := Layer.sent?_fields_of_event? hevent ("_" ++ n)
  rw [Layer.metadata?_append, Option.or_none] at hprefixed
  rw [Encoder.additional_of_record_eq_ok hrecord, get?_wireFields _ _ hname]
  simp only [wireValue?, hplain, hprefixed, Layer.sent?_fields_of_event? hevent n]
  rfl

/-- **Recorded fields on the wire.** A recorded field is sent, and no field of the encoder is, unless
it is spelled only with an underscore before the name of metadata that the layer keeps. Then these
metadata are sent instead. -/
theorem recorded_field_is_sent (hname : IsWireName n) (hplain : hasUnderscore n = false)
    (hevent : layer.event? clock traced = some event) (hrecord : encoder.record event = .ok r)
    (hrecorded : ∃ name recorded, (name = n ∨ name = "_" ++ n) ∧
      EventSlot.ofName? name = none ∧ (name, recorded) ∈ traced.fields) :
    (layer.metadata? traced n = none ∨ lastRecorded? traced.fields n ≠ none →
      ∃ name recorded, (name = n ∨ name = "_" ++ n) ∧
        lastRecorded? traced.fields name = some recorded ∧
        r.additional.get? ("_" ++ n) = some recorded.value) ∧
    ∀ value, layer.metadata? traced n = some value → lastRecorded? traced.fields n = none →
      r.additional.get? ("_" ++ n) = some value := by
  have hsent := get?_additional hname hplain hevent hrecord
  constructor
  · intro hfree
    cases hown : lastRecorded? traced.fields n with
    | some own =>
      cases hprefixed : lastRecorded? traced.fields ("_" ++ n) with
      | none =>
        refine ⟨n, own, .inl rfl, hown, ?_⟩
        rw [hsent, hown, hprefixed]
        simp
      | some prefixed =>
        -- Both spellings were recorded, so the later one is sent.
        by_cases hlt : n < "_" ++ n
        · refine ⟨"_" ++ n, prefixed, .inr rfl, hprefixed, ?_⟩
          rw [hsent, hown, hprefixed]
          simp [hlt]
        · refine ⟨n, own, .inl rfl, hown, ?_⟩
          rw [hsent, hown, hprefixed]
          simp [hlt]
    | none =>
      have hmetadata : layer.metadata? traced n = none := hfree.resolve_right fun h => h hown
      obtain ⟨name, recorded, hspelling, hslot, hfield⟩ := hrecorded
      have hsome := lastRecorded?_isSome_iff.2 ⟨hslot, recorded, hfield⟩
      rcases hspelling with rfl | rfl
      · rw [hown] at hsome
        cases hsome
      · obtain ⟨prefixed, hprefixed⟩ := Option.isSome_iff_exists.1 hsome
        refine ⟨"_" ++ n, prefixed, .inr rfl, hprefixed, ?_⟩
        rw [hsent, hown, hmetadata, hprefixed]
        simp
  · intro value hmetadata hown
    have hgt := (Layer.of_metadata? hmetadata).1
    rw [hsent, hown, hmetadata]
    simp [String.lt_asymm hgt]

end Wire

/-- A recorded kind is sent and not that of the encoder. A recorded file gives way to the file where
the event was traced. -/
theorem recorded_kind_is_sent :
    let traced : TraceEvent :=
      { name := "event x", target := "app", level := .info, file := some "main"
        fields := [("_kind", .text "mine"), ("_file", .text "mine"), ("message", .text "hi")] }
    let encoder : Encoder :=
      { host := "local", fields := FieldMap.ofList [("kind", .string "theirs")] }
    ∃ event r, Layer.event? {} 1.5 traced = some event ∧ encoder.record event = .ok r ∧
      r.additional.get? "_kind" = some (.string "mine") ∧
      r.additional.get? "_file" = some (.string "main") := by
  intro traced encoder
  obtain ⟨event, hevent⟩ : ∃ event, Layer.event? {} 1.5 traced = some event := ⟨_, rfl⟩
  have hmessage : ¬ Text.blank event.shortMessage = true := by
    cases hevent
    decide +kernel
  obtain ⟨r, hrecord⟩ : ∃ r, encoder.record event = .ok r :=
    Encoder.exists_record_of_not_blank hmessage
  refine ⟨event, r, hevent, hrecord, ?_, ?_⟩
  · have hname : IsWireName "kind" := by decide
    obtain ⟨hsent, -⟩ := recorded_field_is_sent hname rfl hevent hrecord
      ⟨"_kind", .text "mine", .inr rfl, rfl, List.mem_cons_self⟩
    have hfree : Layer.metadata? {} traced "kind" = none := Layer.metadata?_eq_none _ _ (by decide)
    obtain ⟨name, recorded, rfl | rfl, hlast, hvalue⟩ := hsent (.inl hfree)
    · cases hlast
    · cases hlast
      exact hvalue
  · have hname : IsWireName "file" := by decide
    obtain ⟨-, hsent⟩ := recorded_field_is_sent hname rfl hevent hrecord
      ⟨"_file", .text "mine", .inr rfl, rfl, List.mem_cons_of_mem _ List.mem_cons_self⟩
    have hfile : Layer.metadata? {} traced "file" = some (.string "main") :=
      FieldMap.get?_ofList _ _
    exact hsent (.string "main") hfile rfl

/-- The recorded target is spelled with an underscore, and the target of the metadata is sent. -/
theorem metadata_hide_a_recorded_target :
    let traced : TraceEvent :=
      { name := "event x", target := "app", level := .info
        fields := [("_target", .text "mine"), ("message", .text "hi")] }
    let encoder : Encoder := { host := "local" }
    ∃ event r, Layer.event? {} 1.5 traced = some event ∧ encoder.record event = .ok r ∧
      IsWireName "target" ∧ hasUnderscore "target" = false ∧
      EventSlot.ofName? "_target" = none ∧ ("_target", .text "mine") ∈ traced.fields ∧
      ∀ name recorded, name = "target" ∨ name = "_target" → (name, recorded) ∈ traced.fields →
        r.additional.get? "_target" ≠ some recorded.value := by
  intro traced encoder
  obtain ⟨event, hevent⟩ : ∃ event, Layer.event? {} 1.5 traced = some event := ⟨_, rfl⟩
  have hmessage : ¬ Text.blank event.shortMessage = true := by
    cases hevent
    decide +kernel
  obtain ⟨r, hrecord⟩ : ∃ r, encoder.record event = .ok r :=
    Encoder.exists_record_of_not_blank hmessage
  have hname : IsWireName "target" := by decide
  have hsent : r.additional.get? "_target" = some (.string "app") := by
    have hgt : ¬ "target" < "_" ++ "target" := by decide
    rw [show "_target" = "_" ++ "target" from rfl, get?_additional hname rfl hevent hrecord]
    simp only [if_neg hgt]
    rfl
  refine ⟨event, r, hevent, hrecord, hname, rfl, rfl, List.mem_cons_self, ?_⟩
  intro name recorded hspelling hmem
  have hrecorded : recorded.value = .string "mine" := by
    rcases List.mem_cons.1 hmem with heq | hrest
    · cases heq
      rfl
    · cases List.mem_singleton.1 hrest
      exact absurd hspelling (by decide)
  rw [hsent, hrecorded]
  intro heq
  have hsame : "app" = "mine" := Value.string.inj (Option.some.inj heq)
  exact absurd hsame (by decide)

end Gelf.Trace
