import Gelf.Proofs.Encoder.Additional
import Gelf.Proofs.Encoder.RoundTrip
import Gelf.Proofs.Encoder.Slots

/-!
# Relaying

A record can be taken for an event again. The encoder that made it makes the same record of that
event, so a message that is passed on keeps its octets. Its fields have their underscores already,
and they come before those that the encoder would add once more.
-/

namespace Gelf

open Json (Fields Value)

/-- The event that a record says. One without a time gets the given stamp. -/
def Record.toEvent (r : Record) (stamp : Float) : Event where
  timestamp := (r.timestamp.map FiniteFloat.val).getD stamp
  level := r.level.map fun n => n.toNat
  shortMessage := r.shortMessage
  fullMessage := r.fullMessage
  host := some r.host
  fields := r.additional

/-! ### Fields -/

theorem fieldValue?_of_isFlat {v : Value} (h : v.IsFlat) : fieldValue? v = some v := by
  cases h <;> rfl

/-- Values on the wire are sent as they are. -/
theorem sent?_wireFields (persistent fields : Fields) (name : String) :
    sent? (wireFields persistent fields) name = (wireFields persistent fields).get? name := by
  rw [sent?]
  cases h : (wireFields persistent fields).get? name with
  | none => rfl
  | some v =>
    obtain ⟨-, -, hflat⟩ := exists_of_mem_wireFields (FieldMap.get?_eq_some_iff.1 h)
    exact fieldValue?_of_isFlat hflat

/-- Names on the wire are spelled with the underscore only. -/
theorem wireValue?_wireFields (persistent fields : Fields) (n : String) :
    wireValue? (wireFields persistent fields) n =
      (wireFields persistent fields).get? ("_" ++ n) := by
  -- a name without an underscore is on no wire
  have hplain : (if hasUnderscore n then none else sent? (wireFields persistent fields) n) =
      none := by
    split
    · rfl
    · rename_i hunderscore
      rw [sent?_wireFields, Option.eq_none_iff_forall_ne_some]
      intro v hv
      obtain ⟨m, rfl, -⟩ := exists_of_get?_wireFields hv
      exact hunderscore (hasUnderscore_append m)
  rw [wireValue?, hplain, sent?_wireFields]
  simp only [Option.or_none, Option.none_or, ite_self]

/-- Fields on the wire stay when they go over it again. -/
theorem wireFields_wireFields (persistent fields : Fields) :
    wireFields persistent (wireFields persistent fields) = wireFields persistent fields := by
  refine wireFields_ext fun n hn => ?_
  rw [get?_wireFields persistent _ hn, wireValue?_wireFields, get?_wireFields _ _ hn,
    Option.or_assoc, Option.or_self]

/-! ### Records -/

namespace Encoder

variable {encoder : Encoder} {event : Event}

theorem hostOf_toEvent {r : Record} (h : r.host = encoder.hostOf event) (stamp : Float) :
    encoder.hostOf (r.toEvent stamp) = r.host := by
  have hhost : encoder.hostOf (r.toEvent stamp) =
      if r.host = "" then encoder.host else r.host := rfl
  rw [hhost]
  split
  · -- only an encoder without a host sends an empty one
    rename_i hempty
    rw [hempty, hostOf] at h
    rw [hempty]
    split at h
    · split at h
      · exact h.symm
      · rename_i hne
        exact absurd h.symm hne
    · exact h.symm
  · rfl

theorem timestampOf_toEvent {r : Record} (h : r.timestamp = timestampOf event) {stamp : Float}
    (hstamp : stamp < 0) : timestampOf (r.toEvent stamp) = r.timestamp := by
  cases htime : r.timestamp with
  | none =>
    have hevent : (r.toEvent stamp).timestamp = stamp := by rw [Record.toEvent, htime]; rfl
    rw [Option.eq_none_iff_forall_ne_some]
    intro x hx
    have hnot := (timestampOf_eq_some_iff.1 hx).2
    rw [hevent] at hnot
    exact hnot hstamp
  | some x =>
    have hevent : (r.toEvent stamp).timestamp = x.val := by rw [Record.toEvent, htime]; rfl
    obtain ⟨hval, hnot⟩ := timestampOf_eq_some_iff.1 (h.symm.trans htime)
    rw [← hval] at hnot
    exact timestampOf_eq_some_iff.2 ⟨hevent.symm, hevent ▸ hnot⟩

theorem record_toEvent {r : Record} (h : encoder.record event = .ok r) {stamp : Float}
    (hstamp : stamp < 0) : encoder.record (r.toEvent stamp) = .ok r := by
  obtain ⟨hblank, hr⟩ := record_eq_ok_iff.1 h
  have hhost : encoder.hostOf (r.toEvent stamp) = r.host := hostOf_toEvent (by rw [hr]) stamp
  have htime : timestampOf (r.toEvent stamp) = r.timestamp :=
    timestampOf_toEvent (by rw [hr]) hstamp
  have hlevel : (r.toEvent stamp).level.map sentLevel = r.level := by
    rw [hr, Record.toEvent, Option.map_map, Option.map_map]
    simp only [Function.comp_def, sentLevel_toNat_sentLevel]
  have hfields : wireFields encoder.fields (r.toEvent stamp).fields = r.additional := by
    rw [hr]
    exact wireFields_wireFields encoder.fields event.fields
  refine record_eq_ok_iff.2 ⟨?_, ?_⟩
  · rw [hr]
    exact hblank
  · rw [hhost, htime, hlevel, hfields, hr]
    rfl

/-- **Relaying.** An encoder makes its record of an event again of the event that the record says,
and so it encodes both to the same octets. -/
theorem relayed_is_unaltered {r : Record} (h : encoder.record event = .ok r) {stamp : Float}
    (hstamp : stamp < 0) :
    encoder.record (r.toEvent stamp) = .ok r ∧
      encoder.encode (r.toEvent stamp) = encoder.encode event := by
  have hrecord := record_toEvent h hstamp
  refine ⟨hrecord, ?_⟩
  rw [encode_eq, encode_eq, hrecord, h]

/-- Two underscores stay two, and fields of the encoder are not added twice. -/
theorem two_underscores_are_relayed :
    let encoder : Encoder :=
      ⟨"", FieldMap.ofList [("__a", .string "x"), ("env", .bool true), ("id", .null)]⟩
    let event := (((Event.new (-1) "up").withLevel 99).withField "__id" (.string "7")).withField
      "_env" .null
    ∃ r, encoder.record event = .ok r ∧ encoder.record (r.toEvent (-1)) = .ok r ∧
      encoder.encode (r.toEvent (-1)) = encoder.encode event := by
  intro encoder event
  obtain ⟨r, hrecord⟩ := @exists_record_of_not_blank encoder event (by decide)
  obtain ⟨hagain, hencode⟩ := @relayed_is_unaltered encoder event r hrecord (-1) (by decide)
  exact ⟨r, hrecord, hagain, hencode⟩

end Encoder

end Gelf
