import Gelf.Proofs.Encoder.Additional
import Gelf.Proofs.Encoder.RoundTrip
import Gelf.Proofs.Record.Normal

/-!
# Nested values

Receivers take no arrays and objects, so these are sent as their texts, which are escaped once more
in the text of the record. Reading both layers gives the value back, and no two values share a text.
-/

namespace Gelf

open Json (Fields Value)

namespace Json.Value

/-- An array or an object without floats, no deeper than a reader goes. -/
structure IsNested (v : Value) : Prop where
  container : (∃ items, v = .array items) ∨ ∃ members, v = .object members
  ordered : v.Ordered
  depth : v.depth ≤ 127
  floatFree : v.FloatFree

namespace IsNested

variable {v w : Value}

theorem ne_null (h : v.IsNested) : v ≠ .null := by
  obtain ⟨items, rfl⟩ | ⟨members, rfl⟩ := h.container <;> nofun

theorem sentAs (h : v.IsNested) : SentAs v (.string v.text) := by
  obtain ⟨items, rfl⟩ | ⟨members, rfl⟩ := h.container
  · exact .array items
  · exact .object members

/-- **Inner layer.** The text of a nested value is read back as the value. -/
theorem read_text (h : v.IsNested) : read (Text.utf8 v.text) = .ok v := by
  obtain ⟨w, hread, herase⟩ := exists_read_text h.ordered h.depth
  rw [hread, eq_of_eraseFloats v h.floatFree herase]

theorem text_inj (hv : v.IsNested) (hw : w.IsNested) (h : w.text = v.text) : w = v := by
  have hread := hw.read_text
  rw [h, hv.read_text] at hread
  exact (Except.ok.inj hread).symm

end IsNested

end Json.Value

/-- A field is sent under `n`, and no other field of the map has that name on the wire. -/
structure SendsAlone (fields : Fields) (name n : String) (v : Value) : Prop where
  entry : fields.get? name = some v
  accepted : fieldName? name = some n
  alone : ∀ other w, fields.get? other = some w → fieldName? other = some n → other = name

theorem SendsAlone.decides {fields : Fields} {name n : String} {v : Value}
    (h : SendsAlone fields name n v) (hv : v ≠ .null) : IsWireName n ∧ Decides fields n name v := by
  obtain ⟨hn, hspells⟩ := fieldName?_eq_some_iff.1 h.accepted
  refine ⟨hn, ⟨hspells, h.entry, hv⟩, fun other w hother => ?_⟩
  have hsame := h.alone other w hother.entry (fieldName?_eq_some_iff.2 ⟨hn, hother.spells⟩)
  rw [hsame]
  exact List.le_refl _

namespace Encoder

variable {encoder : Encoder} {event : Event} {bytes : List UInt8}

/-- **Outer layer.** A string that an additional field is sent as is read back from the record. -/
theorem exists_read_additional (h : encoder.encode event = .ok bytes) {n name : String} {v : Value}
    {text : String} (hn : IsWireName n) (hdecides : Decides event.fields n name v)
    (hsent : SentAs v (.string text)) :
    ∃ r, Record.read bytes = .ok r ∧ r.additional.get? ("_" ++ n) = some (.string text) := by
  obtain ⟨written, r, hrecord, hread, hsame⟩ := exists_read_of_encode h
  have hwritten : written.additional.get? ("_" ++ n) = some (.string text) := by
    rw [additional_of_record_eq_ok hrecord]
    exact get?_wireFields_eq_some_iff.2 ⟨hn, name, v, .inl hdecides, hsent⟩
  have herase := hsame.additional ("_" ++ n)
  rw [hwritten] at herase
  obtain ⟨w, hw, hstring⟩ := Option.map_eq_some_iff.1 herase
  rw [Value.eq_of_eraseFloats (.string text) trivial hstring] at hw
  exact ⟨r, hread, hw⟩

/-- **Two layers.** A nested value that alone is sent under a name is found in the decoded record as
its text. Reading the text gives the value, and it is the text of no other one. -/
theorem nested_value_is_read_back (hencode : encoder.encode event = .ok bytes) {name n : String}
    {v : Value} (hfield : SendsAlone event.fields name n v) (hv : v.IsNested) :
    ∃ r, Record.read bytes = .ok r ∧ r.additional.get? ("_" ++ n) = some (.string v.text) ∧
      Value.read (Text.utf8 v.text) = .ok v ∧
      ∀ w : Value, w.IsNested → w.text = v.text → w = v := by
  obtain ⟨hn, hdecides⟩ := hfield.decides hv.ne_null
  obtain ⟨r, hread, hstring⟩ := exists_read_additional hencode hn hdecides hv.sentAs
  exact ⟨r, hread, hstring, hv.read_text, fun w hw => hv.text_inj hw⟩

/-- A key with a line break in an object with an empty array, behind an encoder with a field of the
same name. -/
theorem tags_are_read_back :
    let encoder : Encoder := ⟨"web-1", FieldMap.ofList [("_tags", .string "none")]⟩
    let tags := Value.object [("a\n\"", .array []), ("b", .ofInteger ⟨-1, by decide, by decide⟩)]
    ∃ bytes r, encoder.encode ((Event.new 1.5 "up").withField "tags" tags) = .ok bytes ∧
      Record.read bytes = .ok r ∧ r.additional.get? "_tags" = some (.string tags.text) ∧
      Value.read (Text.utf8 tags.text) = .ok tags := by
  intro encoder tags
  have hblank : ¬ Text.blank ((Event.new 1.5 "up").withField "tags" tags).shortMessage = true := by
    decide
  obtain ⟨bytes, hencode⟩ := @exists_encode_of_not_blank encoder _ hblank
  have hfield :
      SendsAlone ((Event.new 1.5 "up").withField "tags" tags).fields "tags" "tags" tags := by
    refine ⟨rfl, by decide, fun other w hother _ => ?_⟩
    rw [Event.withField, FieldMap.get?_insert] at hother
    split at hother
    · assumption
    · cases hother
  have htags : tags.IsNested :=
    { container := .inr ⟨_, rfl⟩
      ordered := ⟨(Json.increasing_iff_map_fst _).2 (by decide), trivial, trivial, trivial⟩
      depth := by decide
      floatFree := ⟨trivial, trivial, trivial⟩ }
  obtain ⟨r, hread, hstring, hvalue, -⟩ := nested_value_is_read_back hencode hfield htags
  exact ⟨bytes, r, hencode, hread, hstring, hvalue⟩

end Encoder

end Gelf
