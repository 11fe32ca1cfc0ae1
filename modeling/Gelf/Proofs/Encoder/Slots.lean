import Gelf.Encoder
import Gelf.Proofs.Decimal.Rounding

/-!
# The slots of a record

What the encoder puts into the slots of a record. A severity out of range becomes the nearest one,
and a time is left out if it is not finite or lies before the epoch.
-/

namespace Gelf

open Float.Model (UnpackedFloat)

/-! ### Times -/

/-- A finite float is below zero, or zero is at most the float. -/
theorem zero_le_iff {x : Float} (hx : x.isFinite = true) : 0 ≤ x ↔ ¬ x < 0 := by
  have hzero : (0 : Float).toModel.unpack = .zero .positive := rfl
  have hle : 0 ≤ x ↔
      ((UnpackedFloat.zero .positive).compare x.toModel.unpack).any (·.isLE) = true := by
    rw [← hzero]
    exact decide_eq_true_iff
  have hlt : x < 0 ↔ (x.toModel.unpack.compare (.zero .positive) == some .lt) = true := by
    rw [← hzero]
    exact decide_eq_true_iff
  rw [hle, hlt]
  rcases Rounding.unpack_of_isFinite hx with ⟨s, heq⟩ | ⟨s, m, e, hpos, heq, -, -⟩
  · rw [heq]
    cases s <;> decide
  · rw [heq]
    cases s <;> simp [UnpackedFloat.compare]

namespace Encoder

variable {encoder : Encoder} {event : Event}

theorem timestampOf_eq_some_iff {x : FiniteFloat} :
    timestampOf event = some x ↔ x.val = event.timestamp ∧ ¬ event.timestamp < 0 := by
  rw [timestampOf, Option.filter_eq_some_iff, decide_eq_true_iff, zero_le_iff x.isFinite]
  constructor
  · rintro ⟨hfinite, hnot⟩
    have hval := FiniteFloat.val_of_ofFloat? hfinite
    exact ⟨hval, hval ▸ hnot⟩
  · rintro ⟨hval, hnot⟩
    rw [← hval] at hnot ⊢
    exact ⟨FiniteFloat.ofFloat?_val x, hnot⟩

theorem isSome_timestampOf_iff :
    (timestampOf event).isSome = true ↔
      event.timestamp.isFinite = true ∧ ¬ event.timestamp < 0 := by
  rw [Option.isSome_iff_exists]
  constructor
  · rintro ⟨x, hx⟩
    obtain ⟨hval, hnot⟩ := timestampOf_eq_some_iff.1 hx
    exact ⟨hval ▸ x.isFinite, hnot⟩
  · rintro ⟨hfinite, hnot⟩
    exact ⟨⟨event.timestamp, hfinite⟩, timestampOf_eq_some_iff.2 ⟨rfl, hnot⟩⟩

/-! ### Levels -/

/-- The level of an event as it is sent. -/
def sentLevel (n : Int) : UInt8 := UInt8.ofNat (Severity.ofInt n).number

theorem toNat_sentLevel_eq_number (n : Int) : (sentLevel n).toNat = (Severity.ofInt n).number := by
  have hnumber := Severity.number_ofInt n
  have hlt : (Severity.ofInt n).number < 256 := by omega
  rw [sentLevel, UInt8.toNat_ofNat_of_lt' hlt]

theorem toNat_sentLevel (n : Int) : ((sentLevel n).toNat : Int) = max 0 (min n 7) := by
  rw [toNat_sentLevel_eq_number, Severity.number_ofInt]

/-- A severity is in range once it was sent. -/
theorem sentLevel_toNat_sentLevel (n : Int) : sentLevel (sentLevel n).toNat = sentLevel n := by
  rw [toNat_sentLevel_eq_number, sentLevel, Severity.ofInt_number, sentLevel]

/-! ### Records -/

theorem record_eq_ok_iff {r : Record} :
    encoder.record event = .ok r ↔ Text.blank event.shortMessage = false ∧ r =
      { version := formatVersion
        host := encoder.hostOf event
        shortMessage := event.shortMessage
        fullMessage := event.fullMessage
        timestamp := timestampOf event
        level := event.level.map sentLevel
        additional := wireFields encoder.fields event.fields } := by
  rw [record]
  cases Text.blank event.shortMessage with
  | true => exact iff_of_false nofun nofun
  | false =>
    simp only [Bool.false_eq_true, ↓reduceIte, true_and, Except.ok.injEq]
    exact eq_comm

end Encoder

end Gelf
