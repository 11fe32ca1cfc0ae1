import Gelf.Proofs.Encoder.Fields
import Gelf.Proofs.Json.Bounds
import Gelf.Proofs.Record.RoundTrip

/-!
# Decoding what was encoded

Records of the encoder can be read back whatever the event was: the underscore keeps the names of
fields apart from those of slots, and nothing on the wire is deeper than a number or a string.
-/

namespace Gelf

open Json (Value)

/-! ### Fields on the wire -/

/-- A value that stands on the wire as it is. -/
inductive Json.Value.IsFlat : Value → Prop
  | number (n : Json.Number) : IsFlat (.number n)
  | string (s : String) : IsFlat (.string s)

namespace Json.Value

theorem IsFlat.ordered {v : Value} (h : v.IsFlat) : v.Ordered := by
  cases h <;> trivial

theorem IsFlat.depth_eq {v : Value} (h : v.IsFlat) : v.depth = 0 := by
  cases h <;> simp [depth]

end Json.Value

theorem isFlat_of_fieldValue? {v w : Value} (h : fieldValue? v = some w) : w.IsFlat := by
  cases v with
  | null => cases h
  | bool b => cases h; exact .string _
  | number n => cases h; exact .number n
  | string s => cases h; exact .string s
  | array items => cases h; exact .string _
  | object members => cases h; exact .string _

theorem exists_of_wireField? {field e : String × Value} (h : wireField? field = some e) :
    ∃ name, e.1 = "_" ++ name ∧ e.2.IsFlat := by
  unfold wireField? at h
  split at h
  · rename_i name value _ hvalue
    cases h
    exact ⟨name, rfl, isFlat_of_fieldValue? hvalue⟩
  · cases h

theorem exists_of_mem_wireFields {persistent fields : Json.Fields} {e : String × Value}
    (h : e ∈ (wireFields persistent fields).entries) :
    ∃ name, e.1 = "_" ++ name ∧ e.2.IsFlat := by
  have hmem : e ∈ (persistent.entries ++ fields.entries).filterMap wireField? :=
    FieldMap.mem_of_get?_ofList (FieldMap.get?_eq_some_iff.2 h)
  obtain ⟨field, -, hfield⟩ := List.mem_filterMap.1 hmem
  exact exists_of_wireField? hfield

/-- No slot has a name with a leading underscore. -/
theorem Slot.ofName?_underscore (name : String) : ofName? ("_" ++ name) = none := by
  have hhead (slot : Slot) : slot.name.toList.head? ≠ some '_' := by
    cases slot <;> decide
  apply List.find?_eq_none.2
  intro slot _ hslot
  apply hhead slot
  rw [of_decide_eq_true hslot, String.toList_append]
  rfl

namespace Encoder

theorem readable_of_record_eq_ok {encoder : Encoder} {event : Event} {r : Record}
    (h : encoder.record event = .ok r) : r.Readable := by
  have hfields := additional_of_record_eq_ok h
  have hflat : ∀ m ∈ r.additional.entries, m.2.IsFlat := by
    intro m hm
    rw [hfields] at hm
    obtain ⟨name, -, hvalue⟩ := exists_of_mem_wireFields hm
    exact hvalue
  refine ⟨?_, Value.membersOrdered_of_forall fun m hm => (hflat m hm).ordered,
    Value.membersDepth_le fun m hm => ?_⟩
  · intro e he
    rw [hfields] at he
    obtain ⟨name, hname, -⟩ := exists_of_mem_wireFields he
    rw [hname, Slot.ofName?_underscore]
  · rw [(hflat m hm).depth_eq]
    exact Nat.zero_le _

/-- **Decoding undoes encoding.** Whatever an encoder makes a record of is encoded, and reading the
octets gives the record back, up to floats. -/
theorem read_encode {encoder : Encoder} {event : Event} {r : Record}
    (h : encoder.record event = .ok r) :
    ∃ b r', encoder.encode event = .ok b ∧ Record.read b = .ok r' ∧ r.SameUpToFloats r' := by
  obtain ⟨r', hread, hsame⟩ := Record.exists_read_bytes (readable_of_record_eq_ok h)
  refine ⟨r.bytes, r', ?_, hread, hsame⟩
  rw [encode_eq, h]
  rfl

/-- What was encoded is read back as the record that was written, up to floats. -/
theorem exists_read_of_encode {encoder : Encoder} {event : Event} {b : List UInt8}
    (h : encoder.encode event = .ok b) :
    ∃ r r', encoder.record event = .ok r ∧ Record.read b = .ok r' ∧ r.SameUpToFloats r' := by
  rw [encode_eq] at h
  obtain ⟨r, hrecord, rfl⟩ := Json.exists_of_map_eq_ok h
  obtain ⟨r', hread, hsame⟩ := Record.exists_read_bytes (readable_of_record_eq_ok hrecord)
  exact ⟨r, r', hrecord, hread, hsame⟩

/-- An event with quotes, a line separator, an emoji, a negative integer and a float in an array. -/
def sampleEvent : Event :=
  ((((Event.new 1.5 "\"disk\" full\u2028").withLevel 4).withField "tags"
    (.array [.string "a\n", .number (.real ⟨2.5, by decide +kernel⟩)])).withField "load"
    (.number (.integer ⟨-1, by decide, by decide⟩))).withHost "web-😀"

theorem sample_event_is_decoded :
    ∃ r b r', (Encoder.mk "web-1" FieldMap.empty).record sampleEvent = .ok r ∧
      (Encoder.mk "web-1" FieldMap.empty).encode sampleEvent = .ok b ∧
      Record.read b = .ok r' ∧ r.SameUpToFloats r' := by
  have hblank : ¬Text.blank sampleEvent.shortMessage = true := by decide +kernel
  have hrecord : (Encoder.mk "web-1" FieldMap.empty).record sampleEvent = .ok _ := if_neg hblank
  obtain ⟨b, r', hencode, hread, hsame⟩ := read_encode hrecord
  exact ⟨_, b, r', hrecord, hencode, hread, hsame⟩

end Encoder

end Gelf
