import Gelf.Proofs.Encoder.Additional
import Gelf.Proofs.Encoder.RoundTrip
import Gelf.Proofs.Encoder.Slots
import Gelf.Proofs.Json.Printed

/-!
# The line of an event

An encoded event is one line of JSON. It has the members of its record in their order, no name
occurs twice, and what stands under the name of an additional field is a string or a number.
-/

namespace Gelf

open Json (Tree Value)
open Json.Grammar (IsText)

/-- What may stand behind the slots of a message. -/
structure IsAdditional (m : String × Tree) : Prop where
  name : ∃ n, m.1 = "_" ++ n ∧ n ≠ "" ∧ ∀ c ∈ n.toList, IsNameChar c
  ne_id : m.1 ≠ "_id"
  value : (∃ s, m.2 = .string s) ∨ ∃ literal, m.2 = .number literal

/-- The members of the message of an event, as they stand in a text. -/
structure IsMessage (host : String) (event : Event) (members : List (String × Tree)) : Prop where
  not_blank : Text.blank event.shortMessage = false
  distinct : (members.map Prod.fst).Nodup
  layout : ∃ (time : Option (List Char)) (additional : List (String × Tree)),
    members =
      [("version", .string "1.1"), ("host", .string host),
        ("short_message", .string event.shortMessage)] ++
      (event.fullMessage.map fun text => ("full_message", Tree.string text)).toList ++
      (time.map fun literal => ("timestamp", Tree.number literal)).toList ++
      (event.level.map fun n =>
        ("level", Tree.number (Nat.toDigits 10 (max 0 (min n 7)).toNat))).toList ++
      additional ∧
    (time.isSome = true ↔ event.timestamp.isFinite = true ∧ ¬ event.timestamp < 0) ∧
    additional.Pairwise (fun a b => Text.utf8 a.1 < Text.utf8 b.1) ∧
    ∀ m ∈ additional, IsAdditional m

/-! ### Names -/

namespace Record

/-- The names of the slots in the order of the wire. -/
def slotNames : List String :=
  ["version", "host", "short_message", "full_message", "timestamp", "level"]

theorem exists_map_fst_members (r : Record) :
    ∃ names, names.Sublist slotNames ∧
      r.members.map Prod.fst = names ++ r.additional.entries.map Prod.fst := by
  obtain ⟨version, host, shortMessage, fullMessage, timestamp, level, additional⟩ := r
  have hslot {α : Type} (value : Option α) (name : String) :
      (value.map fun _ => name).toList.Sublist [name] := by
    cases value with
    | none => exact List.nil_sublist _
    | some _ => exact List.Sublist.refl _
  have hrequired : ["version", "host", "short_message"].Sublist
      ["version", "host", "short_message"] := List.Sublist.refl _
  refine ⟨_, ((hrequired.append (hslot fullMessage "full_message")).append
    (hslot timestamp "timestamp")).append (hslot level "level"), ?_⟩
  cases fullMessage <;> cases timestamp <;> cases level <;> rfl

/-- The names of members are distinct if no field has the name of a slot. -/
theorem nodup_members {r : Record} (h : ∀ e ∈ r.additional.entries, Slot.ofName? e.1 = none) :
    (r.members.map Prod.fst).Nodup := by
  obtain ⟨names, hsublist, heq⟩ := r.exists_map_fst_members
  have hslots : ∀ name ∈ slotNames, Slot.ofName? name ≠ none := by decide
  rw [heq, List.nodup_append]
  refine ⟨hsublist.nodup (by decide), ?_, ?_⟩
  · have hincreasing := (Json.increasing_iff_map_fst _).1 r.additional.increasing
    exact hincreasing.imp fun hlt => String.ne_of_lt hlt
  · rintro name hname _ hfield rfl
    obtain ⟨e, he, rfl⟩ := List.mem_map.1 hfield
    exact hslots e.1 (hsublist.subset hname) (h e he)

end Record

/-! ### Values -/

theorem Json.Value.IsFlat.tree_cases {v : Value} (h : v.IsFlat) :
    (∃ s, v.tree = .string s) ∨ ∃ literal, v.tree = .number literal := by
  cases h with
  | number n => exact .inr ⟨n.chars, rfl⟩
  | string s => exact .inl ⟨s, rfl⟩

theorem isAdditional_of_mem {persistent fields : Json.Fields} {e : String × Value}
    (h : e ∈ (wireFields persistent fields).entries) : IsAdditional (e.1, e.2.tree) := by
  obtain ⟨n, hname, hn⟩ := exists_of_get?_wireFields (FieldMap.get?_eq_some_iff.2 h)
  obtain ⟨hempty, hid, hchars⟩ := isWireName_iff.1 hn
  obtain ⟨-, -, hflat⟩ := exists_of_mem_wireFields h
  refine ⟨⟨n, hname, hempty, hchars⟩, ?_, hflat.tree_cases⟩
  intro heq
  rw [hname] at heq
  exact hid ((String.append_right_inj "_").1 heq)

theorem tree_sentLevel (n : Int) :
    (Value.ofInteger (.ofUInt64 (Encoder.sentLevel n).toUInt64)).tree =
      .number (Nat.toDigits 10 (max 0 (min n 7)).toNat) := by
  have hlevel := Encoder.toNat_sentLevel n
  have hval : (Json.Integer.ofUInt64 (Encoder.sentLevel n).toUInt64).val = max 0 (min n 7) := by
    rw [← hlevel]
    exact congrArg Nat.cast (Encoder.sentLevel n).toNat_toUInt64
  have habs : (max 0 (min n 7)).natAbs = (max 0 (min n 7)).toNat := by omega
  rw [Value.ofInteger, Value.tree, Json.Number.chars, hval, Json.integerChars, if_neg (by omega),
    habs]

/-! ### Lines -/

namespace Encoder

variable {encoder : Encoder} {event : Event}

/-- What stands in the text of a record of the encoder. -/
theorem isMessage_memberTrees {r : Record} (h : encoder.record event = .ok r) :
    IsMessage (encoder.hostOf event) event (Value.memberTrees r.members) := by
  obtain ⟨hblank, hr⟩ := record_eq_ok_iff.1 h
  have hdistinct := Record.nodup_members (readable_of_record_eq_ok h).slots
  subst hr
  rw [Value.memberTrees_eq_map]
  refine ⟨hblank, by rwa [List.map_map],
    (timestampOf event).map fun x => (Json.Number.real x).chars,
    (wireFields encoder.fields event.fields).entries.map fun e => (e.1, e.2.tree), ?_, ?_, ?_, ?_⟩
  · simp only [Record.members, List.map_append, List.map_cons, List.map_nil, ← Option.toList_map,
      Option.map_map, Function.comp_def, tree_sentLevel]
    rfl
  · rw [Option.isSome_map, isSome_timestampOf_iff]
  · rw [List.pairwise_map]
    exact (wireFields encoder.fields event.fields).increasing.imp Text.utf8_lt
  · intro m hm
    obtain ⟨e, he, rfl⟩ := List.mem_map.1 hm
    exact isAdditional_of_mem he

/-- **Lines.** What is encoded of an event is UTF-8 without control characters, and the text is one
JSON object, the message of the event. -/
theorem encode_is_line {b : List UInt8} (h : encoder.encode event = .ok b) :
    ∃ text members, Text.ofUtf8? b = some text ∧ (∀ o ∈ b, 0x20 ≤ o) ∧
      IsText text (.object members) ∧ IsMessage (encoder.hostOf event) event members := by
  rw [encode_eq] at h
  cases hrecord : encoder.record event with
  | error fault =>
    rw [hrecord] at h
    cases h
  | ok r =>
    rw [hrecord] at h
    cases h
    refine ⟨r.text, Value.memberTrees r.members, Text.ofUtf8?_utf8 r.text, ?_, ?_,
      isMessage_memberTrees hrecord⟩
    · have hcontrol := Json.Grammar.noControl_chars (.object r.members)
      intro o ho
      rw [Record.bytes, Record.text, Value.text, Json.utf8_ofList] at ho
      exact Json.Grammar.le_of_mem_octets hcontrol ho
    · exact Json.Grammar.isText_object r.members

/-- A line break in a message, a level out of range and an array make no difference. -/
theorem level_99_is_sent_as_7 :
    let event := ((Event.new 1.5 "up\nand running").withLevel 99).withField "__id" (.array [.null])
    ∃ b text members, (Encoder.mk "web-1" FieldMap.empty).encode event = .ok b ∧
      Text.ofUtf8? b = some text ∧ (∀ o ∈ b, 0x20 ≤ o) ∧ IsText text (.object members) ∧
      IsMessage "web-1" event members ∧ ("level", Tree.number ['7']) ∈ members := by
  intro event
  obtain ⟨b, hencode⟩ :=
    @exists_encode_of_not_blank (Encoder.mk "web-1" FieldMap.empty) event (by decide)
  obtain ⟨text, members, htext, hcontrol, hobject, hmessage⟩ := encode_is_line hencode
  obtain ⟨time, additional, hmembers, -⟩ := hmessage.layout
  refine ⟨b, text, members, hencode, htext, hcontrol, hobject, hmessage, ?_⟩
  have hlevel : ("level", Tree.number ['7']) ∈ (event.level.map fun n =>
      ("level", Tree.number (Nat.toDigits 10 (max 0 (min n 7)).toNat))).toList :=
    List.mem_singleton_self _
  rw [hmembers]
  exact List.mem_append_left _ (List.mem_append_right _ hlevel)

end Encoder

end Gelf
