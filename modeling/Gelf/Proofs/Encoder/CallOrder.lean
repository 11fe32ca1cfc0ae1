import Gelf.Proofs.Calls
import Gelf.Shipper.Builder

/-!
# The order of calls

Events and encoders are put together by calls. What is encoded does not show in which order the
calls were made, nor what was set and then set again: only the last value of each slot and of each
name matters. Two names that get one name on the wire are no exception, since the names decide
between them and not the calls.
-/

namespace Gelf

open Json (Value)

/-! ### Events -/

namespace Event

/-- A call that changes an event. -/
inductive Call
  | level (n : Int)
  | timestamp (x : Float)
  | fullMessage (text : String)
  | host (source : String)
  | field (name : String) (value : Value)

def call (event : Event) : Call → Event
  | .level n => event.withLevel n
  | .timestamp x => event.withTimestamp x
  | .fullMessage text => event.withFullMessage text
  | .host source => event.withHost source
  | .field name value => event.withField name value

namespace Call

def level? : Call → Option Int
  | .level n => some n
  | _ => none

def timestamp? : Call → Option Float
  | .timestamp x => some x
  | _ => none

def fullMessage? : Call → Option String
  | .fullMessage text => some text
  | _ => none

def host? : Call → Option String
  | .host source => some source
  | _ => none

def field? : Call → Option (String × Value)
  | .field name value => some (name, value)
  | _ => none

end Call

/-- The two lists set the same slots and fields, and the last value of each is the same. -/
structure SameCalls (calls others : List Call) : Prop where
  level : (calls.filterMap Call.level?).getLast? = (others.filterMap Call.level?).getLast?
  timestamp :
    (calls.filterMap Call.timestamp?).getLast? = (others.filterMap Call.timestamp?).getLast?
  fullMessage :
    (calls.filterMap Call.fullMessage?).getLast? = (others.filterMap Call.fullMessage?).getLast?
  host : (calls.filterMap Call.host?).getLast? = (others.filterMap Call.host?).getLast?
  fields : SameLast (calls.filterMap Call.field?) (others.filterMap Call.field?)

theorem shortMessage_foldl_call (calls : List Call) (event : Event) :
    (calls.foldl call event).shortMessage = event.shortMessage := by
  induction calls generalizing event with
  | nil => rfl
  | cons c calls ih =>
    rw [List.foldl_cons, ih]
    cases c <;> rfl

theorem fields_foldl_call (calls : List Call) (event : Event) :
    (calls.foldl call event).fields =
      (calls.filterMap Call.field?).foldl (fun m f => m.insert f.1 f.2) event.fields := by
  induction calls generalizing event with
  | nil => rfl
  | cons c calls ih =>
    rw [List.foldl_cons, ih]
    cases c <;> rfl

variable {calls others : List Call} {clock clock' : Float}

theorem exists_getLast?_timestamp {x : Float} (h : Call.timestamp x ∈ calls) :
    ∃ y, (calls.filterMap Call.timestamp?).getLast? = some y := by
  cases hlast : (calls.filterMap Call.timestamp?).getLast? with
  | some y => exact ⟨y, rfl⟩
  | none =>
    have hnone := List.filterMap_eq_nil_iff.1 (List.getLast?_eq_none_iff.1 hlast) _ h
    cases hnone

/-- Events with the same calls are equal if the clock was the same, or was set aside. -/
theorem SameCalls.foldl_call_eq (h : SameCalls calls others)
    (hclock : clock = clock' ∨ ∃ x, Call.timestamp x ∈ calls) (message : String) :
    calls.foldl call (new clock message) = others.foldl call (new clock' message) := by
  ext1
  · have heffect (event : Event) (c : Call) :
        some (event.call c).timestamp = c.timestamp?.or (some event.timestamp) := by
      cases c <;> rfl
    have hlast := part_foldl (fun event : Event => some event.timestamp) heffect
    rw [← Option.some_inj, hlast, hlast, ← h.timestamp]
    -- the stamp of the clock stays only if no call sets the time
    rcases hclock with rfl | ⟨x, hx⟩
    · rfl
    · obtain ⟨y, hy⟩ := exists_getLast?_timestamp hx
      rw [hy, Option.some_or, Option.some_or]
  · have heffect (event : Event) (c : Call) : (event.call c).level = c.level?.or event.level := by
      cases c <;> rfl
    rw [part_foldl Event.level heffect, part_foldl Event.level heffect, h.level]
    rfl
  · rw [shortMessage_foldl_call, shortMessage_foldl_call]
    rfl
  · have heffect (event : Event) (c : Call) :
        (event.call c).fullMessage = c.fullMessage?.or event.fullMessage := by
      cases c <;> rfl
    rw [part_foldl Event.fullMessage heffect, part_foldl Event.fullMessage heffect, h.fullMessage]
    rfl
  · have heffect (event : Event) (c : Call) : (event.call c).host = c.host?.or event.host := by
      cases c <;> rfl
    rw [part_foldl Event.host heffect, part_foldl Event.host heffect, h.host]
    rfl
  · rw [fields_foldl_call, fields_foldl_call]
    exact h.fields.ofList_eq

end Event

/-! ### Encoders -/

namespace Builder

/-- A call that sets an option. -/
inductive Call
  | field (name : String) (value : Value)
  | sourceHost (host : String)
  | maxChunkSize (size : UInt64)
  | compression (compression : Compression)
  | sink (sink : Sink)

def call (builder : Builder) : Call → Builder
  | .field name value => builder.addField name value
  | .sourceHost host => { builder with sourceHost := some host }
  | .maxChunkSize size => { builder with maxChunkSize := size }
  | .compression compression => { builder with compression }
  | .sink sink => { builder with sink }

def Call.field? : Call → Option (String × Value)
  | .field name value => some (name, value)
  | _ => none

theorem fields_foldl_call (calls : List Call) (builder : Builder) :
    (calls.foldl call builder).fields = builder.fields ++ calls.filterMap Call.field? := by
  induction calls generalizing builder with
  | nil => exact (List.append_nil _).symm
  | cons c calls ih =>
    rw [List.foldl_cons, ih]
    cases c with
    | field name value => exact List.append_assoc _ _ _
    | sourceHost host => rfl
    | maxChunkSize size => rfl
    | compression compression => rfl
    | sink sink => rfl

theorem encoder_fields_of_build {builder : Builder} {hostname : Hostname} {codec : Codec}
    {pipeline : Pipeline} (h : builder.build hostname codec = .ok pipeline) :
    pipeline.encoder.fields = FieldMap.ofList builder.fields := by
  obtain ⟨host, -, hencoder, -⟩ := exists_host_of_build h
  rw [hencoder]

end Builder

namespace Encoder

/-- How an encoder gets its fields: they are added to it, or to the builder that makes it. -/
inductive Made : Encoder → List (String × Value) → Prop
  | added (host : String) (fields : List (String × Value)) :
    Made (fields.foldl (fun encoder f => encoder.addField f.1 f.2) ⟨host, FieldMap.empty⟩) fields
  | built {start : Builder} (hstart : start.fields = []) (calls : List Builder.Call)
    {hostname : Hostname} {codec : Codec} {pipeline : Pipeline}
    (h : (calls.foldl Builder.call start).build hostname codec = .ok pipeline) :
    Made pipeline.encoder (calls.filterMap Builder.Call.field?)

variable {encoder other : Encoder} {fields others : List (String × Value)}

theorem Made.fields_eq (h : encoder.Made fields) : encoder.fields = FieldMap.ofList fields := by
  cases h with
  | added host =>
    exact (List.foldl_hom Encoder.fields fun _ _ => rfl).symm
  | built hstart calls h =>
    rw [Builder.encoder_fields_of_build h, Builder.fields_foldl_call, hstart, List.nil_append]

theorem Made.eq_of_sameLast (h : encoder.Made fields) (hother : other.Made others)
    (hhost : encoder.host = other.host) (hfields : SameLast fields others) : encoder = other := by
  have heq : encoder.fields = other.fields := by
    rw [h.fields_eq, hother.fields_eq, hfields.ofList_eq]
  cases encoder
  cases other
  cases hhost
  cases heq
  rfl

/-- **The order of calls.** If calls leave each slot and each field at the same value, they make
events that are encoded to the same octets or refused for the same reason. The encoders may be made
by calls in any order too. -/
theorem encode_is_the_same_in_any_order (hencoder : encoder.Made fields)
    (hother : other.Made others) (hhost : encoder.host = other.host)
    (hfields : SameLast fields others) {calls calls' : List Event.Call}
    (hcalls : Event.SameCalls calls calls') {clock clock' : Float}
    (hclock : clock = clock' ∨ ∃ x, Event.Call.timestamp x ∈ calls) (message : String) :
    encoder.encode (calls.foldl Event.call (.new clock message)) =
      other.encode (calls'.foldl Event.call (.new clock' message)) := by
  rw [hencoder.eq_of_sameLast hother hhost hfields, hcalls.foldl_call_eq hclock]

/-- `a` and `_a` get one name on the wire, and so do `env` and `_env`. Which is sent does not depend
on which was set first. -/
theorem spellings_are_set_in_any_order :
    let encoder := ((Encoder.mk "web-1" FieldMap.empty).addField "env" (.string "prod")).addField
      "_env" (.string "stage")
    let options : List Builder.Call := [.field "_env" (.string "stage"), .sourceHost "web-1",
      .field "env" .null, .maxChunkSize 512, .field "env" (.string "prod")]
    ∃ pipeline, (options.foldl Builder.call {}).build (.name "local") .own = .ok pipeline ∧
      encoder.encode ((((Event.new 1 "up").withField "a" (.string "x")).withField "_a"
        (.bool true)).withTimestamp 1.5) =
      pipeline.encoder.encode ((((Event.new 2 "up").withField "_a" (.bool true)).withTimestamp
        1.5).withField "a" (.string "x")) := by
  intro encoder options
  obtain ⟨pipeline, hbuild⟩ :
      ∃ pipeline, (options.foldl Builder.call {}).build (.name "local") .own = .ok pipeline :=
    ⟨_, rfl⟩
  have hadded := Made.added "web-1" [("env", .string "prod"), ("_env", .string "stage")]
  have hbuilt := Made.built rfl options hbuild
  have hhost : "web-1" = pipeline.encoder.host := by
    cases hbuild
    rfl
  have hfields : SameLast [("env", Value.string "prod"), ("_env", .string "stage")]
      [("_env", .string "stage"), ("env", .null), ("env", .string "prod")] := by
    intro name
    by_cases henv : name = "env" <;> by_cases henv' : name = "_env" <;> simp_all [valueAt?]
  have hspellings : SameLast [("a", Value.string "x"), ("_a", .bool true)]
      [("_a", .bool true), ("a", .string "x")] := by
    intro name
    by_cases ha : name = "a" <;> by_cases ha' : name = "_a" <;> simp_all [valueAt?]
  have hcalls : Event.SameCalls
      [.field "a" (.string "x"), .field "_a" (.bool true), .timestamp 1.5]
      [.field "_a" (.bool true), .timestamp 1.5, .field "a" (.string "x")] :=
    ⟨rfl, rfl, rfl, rfl, hspellings⟩
  exact ⟨pipeline, hbuild, encode_is_the_same_in_any_order hadded hbuilt hhost hfields hcalls
    (.inr ⟨1.5, by simp⟩) "up"⟩

end Encoder

end Gelf
