import Gelf.Proofs.Encoder.RoundTrip
import Gelf.Proofs.Json.FloatText

/-!
# Timestamps on the wire

The time of an event is printed so that it can be told from every other float, and is then read by a
reader that rounds twice. A time of few digits comes back as it was. A time of ordinary size may
come back as a neighbour of what it was, and some do, although their text tells what they were.
-/

namespace Gelf.Encoder

variable {encoder : Encoder} {event : Event}

theorem timestampOf_eq (hfinite : event.timestamp.isFinite = true) (hsign : 0 ≤ event.timestamp) :
    timestampOf event = some ⟨event.timestamp, hfinite⟩ := by
  rw [timestampOf, FiniteFloat.ofFloat?, dif_pos hfinite, Option.filter_some]
  exact if_pos (decide_eq_true hsign)

/-- The time of a record that was read is what the text of the time is read as. -/
theorem exists_readsBack_of_encode (encoder : Encoder) (event : Event)
    (hmessage : Text.blank event.shortMessage = false) (hfinite : event.timestamp.isFinite = true)
    (hsign : 0 ≤ event.timestamp) :
    ∃ b r y, encoder.encode event = .ok b ∧ Record.read b = .ok r ∧ r.timestamp = some y ∧
      Json.ReadsBack ⟨event.timestamp, hfinite⟩ y := by
  obtain ⟨sent, hrecord, hsent⟩ : ∃ sent, encoder.record event = .ok sent ∧
      sent.timestamp = some ⟨event.timestamp, hfinite⟩ :=
    ⟨_, if_neg (Bool.eq_false_iff.1 hmessage), timestampOf_eq hfinite hsign⟩
  have hencode : encoder.encode event = .ok sent.bytes := by
    rw [encode_eq, hrecord]
    rfl
  obtain ⟨r, hread, -, htime⟩ :=
    Record.exists_read_bytes_readsBack (readable_of_record_eq_ok hrecord)
  rw [hsent] at htime
  cases htimestamp : r.timestamp with
  | none =>
    rw [htimestamp] at htime
    cases htime
  | some y =>
    rw [htimestamp] at htime
    cases htime with
    | some hback => exact ⟨_, r, y, hencode, hread, htimestamp, hback⟩

/-- **Timestamps.** The time of an acceptable event is still there when the event is decoded. It is
the same float if it is written with few digits. From `0.00001` below `1e22` its bit pattern is at
most one off, and it is the same float to a reader that rounds the text once. -/
theorem timestamp_is_read_back (encoder : Encoder) (event : Event)
    (hmessage : Text.blank event.shortMessage = false) (hfinite : event.timestamp.isFinite = true)
    (hsign : 0 ≤ event.timestamp) :
    ∃ b r y, encoder.encode event = .ok b ∧ Record.read b = .ok r ∧ r.timestamp = some y ∧
      ((Json.Numeral.ofFloat event.timestamp).IsShort →
        y.val.toBits = event.timestamp.toBits) ∧
      (1e-5 ≤ event.timestamp → event.timestamp < 1e22 →
        (y.val.toBits.toNat ≤ event.timestamp.toBits.toNat + 1 ∧
          event.timestamp.toBits.toNat ≤ y.val.toBits.toNat + 1) ∧
        Decimal.readFloat?
          (String.ofList (Decimal.floatChars Json.numerals event.timestamp)) =
            some event.timestamp) := by
  obtain ⟨b, r, y, hencode, hread, htimestamp, hback⟩ :=
    exists_readsBack_of_encode encoder event hmessage hfinite hsign
  exact ⟨b, r, y, hencode, hread, htimestamp,
    fun hshort => congrArg Float.toBits (hback.eq_of_isShort hsign hshort),
    fun hlow hhigh => ⟨hback.near hlow hhigh, Json.readFloat?_floatChars ⟨_, hfinite⟩ hlow hhigh⟩⟩

theorem quarter_second_is_read_back :
    let event := Event.new 1700000000.25 "disk almost full"
    ∃ b r y, (Encoder.mk "local" FieldMap.empty).encode event = .ok b ∧ Record.read b = .ok r ∧
      r.timestamp = some y ∧ y.val.toBits = event.timestamp.toBits := by
  intro event
  obtain ⟨b, r, y, hencode, hread, htimestamp, hshort, -⟩ :=
    timestamp_is_read_back (Encoder.mk "local" FieldMap.empty) event (by decide +kernel)
      (by decide +kernel) (by decide +kernel)
  exact ⟨b, r, y, hencode, hread, htimestamp, hshort (by decide +kernel)⟩

/-- These digits are rounded before they are scaled, and what is read is the next float. -/
theorem digits_of_a_time_are_rounded_twice :
    let event := Event.new 1762572030.4108055 "up"
    ∃ b r y, (Encoder.mk "relay" FieldMap.empty).encode event = .ok b ∧ Record.read b = .ok r ∧
      r.timestamp = some y ∧ y.val.toBits = event.timestamp.toBits + 1 := by
  intro event
  have hfinite : (1762572030.4108055 : Float).isFinite = true := by decide +kernel
  obtain ⟨b, r, y, hencode, hread, htimestamp, hback⟩ :=
    exists_readsBack_of_encode (Encoder.mk "relay" FieldMap.empty) event (by decide +kernel)
      hfinite (by decide +kernel)
  have hsize : (Json.Numeral.ofFloat 1762572030.4108055).significand < 2 ^ 64 := by decide +kernel
  have hnext : Json.scale (Json.isNegative 1762572030.4108055)
      (Json.Numeral.ofFloat 1762572030.4108055).significand
      (Json.Numeral.ofFloat 1762572030.4108055).power =
        .ok (.real ⟨1762572030.4108057, by decide +kernel⟩) := by decide +kernel
  refine ⟨b, r, y, hencode, hread, htimestamp, ?_⟩
  cases hnext.symm.trans (hback.scale_eq hsize)
  decide +kernel

end Gelf.Encoder
