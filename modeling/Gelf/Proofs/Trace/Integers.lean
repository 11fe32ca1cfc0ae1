import Gelf.Proofs.Decimal.Integers
import Gelf.Proofs.Encoder.RoundTrip
import Gelf.Proofs.Encoder.Slots
import Gelf.Proofs.Trace.Slots

/-!
# Integers and their texts

An integer may be recorded as a number or by its decimal text. In slots that hold a text both are
the same. As a level they part where 64 bits with a sign end: a number beyond counts as the greatest
level, while its text is passed over like any other text that is no level. What is sent is then the
same only if the level before was sent as the lowest severity already.
-/

namespace Gelf

/-! ### Events that differ in their level -/

namespace Encoder

variable (encoder : Encoder) (event : Event) (level level' : Option Int)

/-- Two events that differ in their level have one record if both levels are sent alike. -/
theorem record_level_eq_iff :
    encoder.record { event with level := level } = encoder.record { event with level := level' } ↔
      Text.blank event.shortMessage = true ∨ level.map sentLevel = level'.map sentLevel := by
  cases hblank : Text.blank event.shortMessage with
  | true => simp only [record, hblank, ↓reduceIte, true_or]
  | false =>
    have hrecord (l : Option Int) := (@record_eq_ok_iff encoder { event with level := l } _).2
      ⟨hblank, rfl⟩
    rw [hrecord level, hrecord level', Except.ok.injEq]
    simp only [Bool.false_eq_true, false_or]
    constructor
    · intro heq
      exact congrArg Record.level heq
    · intro heq
      simp only [Encoder.hostOf, Encoder.timestampOf, heq]

/-- The octets of an event tell its level, since it can be read back from them. -/
theorem encode_level_eq_iff :
    encoder.encode { event with level := level } = encoder.encode { event with level := level' } ↔
      Text.blank event.shortMessage = true ∨ level.map sentLevel = level'.map sentLevel := by
  rw [← record_level_eq_iff encoder event level level']
  constructor
  · intro heq
    cases hblank : Text.blank event.shortMessage with
    | true => exact (record_level_eq_iff encoder event level level').2 (.inl hblank)
    | false =>
      have hrecord (l : Option Int) := (@record_eq_ok_iff encoder { event with level := l } _).2
        ⟨hblank, rfl⟩
      obtain ⟨b, r, hencode, hread, hsame⟩ := read_encode (hrecord level)
      obtain ⟨b', r', hencode', hread', hsame'⟩ := read_encode (hrecord level')
      rw [hencode, hencode', Except.ok.injEq] at heq
      rw [← heq, hread, Except.ok.injEq] at hread'
      refine (record_level_eq_iff encoder event level level').2 (.inr ?_)
      exact hsame.level.symm.trans ((congrArg Record.level hread').trans hsame'.level)
  · intro heq
    rw [encode_eq, encode_eq, heq]

end Encoder

namespace Trace

/-! ### Levels of integers -/

namespace Recorded

theorem level?_text_signed (n : Int64) :
    (text (signed n).toText).level? = (signed n).level? := by
  have hlower := n.minValue_le_toInt
  have hupper := n.toInt_lt
  rw [level?, toText, Decimal.trim_integerChars, Decimal.readInt64?_integerChars, level?,
    if_pos ⟨by simpa using hlower, by omega⟩]

/-- The text of a number is a level if the number is not beyond the greatest one. -/
theorem level?_text_unsigned (n : UInt64) :
    (text (unsigned n).toText).level? =
      if (n.toNat : Int) ≤ maxLevel then some (n.toNat : Int) else none := by
  rw [level?, toText, Decimal.trim_integerChars, Decimal.readInt64?_integerChars, maxLevel]
  split_ifs <;> first | rfl | omega

end Recorded

/-! ### Events -/

namespace EventSlot

variable {slot : EventSlot} (event : Event)

theorem fill_text_signed (h : slot ≠ .timestamp) (n : Int64) :
    slot.fill event (.text (Recorded.signed n).toText) = slot.fill event (.signed n) := by
  cases slot with
  | level => rw [fill, Recorded.level?_text_signed, fill]
  | timestamp => exact absurd rfl h
  | message => rfl
  | fullMessage => rfl
  | host => rfl

theorem fill_text_unsigned (h : slot ≠ .timestamp) {n : UInt64}
    (hn : slot = .level → (n.toNat : Int) ≤ maxLevel) :
    slot.fill event (.text (Recorded.unsigned n).toText) = slot.fill event (.unsigned n) := by
  cases slot with
  | level =>
    rw [fill, Recorded.level?_text_unsigned, if_pos (hn rfl), fill, Recorded.level?,
      min_eq_left (hn rfl)]
  | timestamp => exact absurd rfl h
  | message => rfl
  | fullMessage => rfl
  | host => rfl

/-- Beyond the greatest level a number counts as the greatest one, and its text as none. -/
theorem fill_level_of_lt {n : UInt64} (h : maxLevel < n.toNat) :
    level.fill event (.unsigned n) = { event with level := some maxLevel } ∧
      level.fill event (.text (Recorded.unsigned n).toText) = event := by
  constructor
  · rw [fill, Recorded.level?, min_eq_right h.le]
    rfl
  · rw [fill, Recorded.level?_text_unsigned, if_neg (not_le.2 h)]
    rfl

end EventSlot

/-- **Integers and texts.** An integer with a sign is recorded as its text is, in every slot but the
timestamp. One without a sign is sent as its text is, unless it is a level that is too great, and
the event can be sent and had a level that is not sent as 7. -/
theorem integer_is_sent_as_its_text_iff (encoder : Encoder) (event : Event) {slot : EventSlot}
    {name : String} (hname : name ∈ slot.names) (hslot : slot ≠ .timestamp) :
    (∀ n : Int64, record event (name, .signed n) =
      record event (name, .text (String.ofList (Json.integerChars n.toInt)))) ∧
    ∀ n : UInt64,
      let number := record event (name, .unsigned n)
      let text := record event (name, .text (String.ofList (Json.integerChars n.toNat)))
      let alike := slot = .level → n.toNat < 2 ^ 63 ∨ Text.blank event.shortMessage = true ∨
        event.level.map Encoder.sentLevel = some 7
      (encoder.record number = encoder.record text ↔ alike) ∧
        (encoder.encode number = encoder.encode text ↔ alike) := by
  have hfill (recorded : Recorded) : record event (name, recorded) = slot.fill event recorded :=
    record_of_slot event recorded (EventSlot.ofName?_eq_some_iff.2 hname)
  simp only [hfill]
  refine ⟨fun n => (EventSlot.fill_text_signed event hslot n).symm, fun n => ?_⟩
  by_cases hsmall : slot = .level → n.toNat < 2 ^ 63
  · -- the same event either way
    have hn (hlevel : slot = .level) : (n.toNat : Int) ≤ maxLevel := by
      have hlt := hsmall hlevel
      rw [maxLevel]
      omega
    have halike : slot = .level → n.toNat < 2 ^ 63 ∨ Text.blank event.shortMessage = true ∨
        event.level.map Encoder.sentLevel = some 7 := fun hlevel => .inl (hsmall hlevel)
    have htext := EventSlot.fill_text_unsigned event hslot hn
    rw [Recorded.toText] at htext
    rw [htext]
    exact ⟨iff_of_true rfl halike, iff_of_true rfl halike⟩
  · obtain ⟨rfl, hlarge⟩ := Classical.not_imp.1 hsmall
    have hlt : maxLevel < n.toNat := by
      rw [maxLevel]
      omega
    obtain ⟨hnumber, htext⟩ := EventSlot.fill_level_of_lt event hlt
    rw [Recorded.toText] at htext
    have hsent : (some maxLevel).map Encoder.sentLevel = some 7 := by decide
    have halike : (EventSlot.level = .level → n.toNat < 2 ^ 63 ∨
        Text.blank event.shortMessage = true ∨ event.level.map Encoder.sentLevel = some 7) ↔
        Text.blank event.shortMessage = true ∨
          (some maxLevel).map Encoder.sentLevel = event.level.map Encoder.sentLevel := by
      rw [hsent, eq_comm (a := some 7)]
      simp only [forall_const, hlarge, false_or]
    rw [hnumber, htext, halike]
    exact ⟨Encoder.record_level_eq_iff encoder event (some maxLevel) event.level,
      Encoder.encode_level_eq_iff encoder event (some maxLevel) event.level⟩

/-- The greatest level is sent alike as a number and as a text. -/
theorem greatest_level_is_sent_as_its_text :
    let event := (Event.new 1.5 "up").withLevel 6
    let encoder : Encoder := ⟨"web-1", FieldMap.empty⟩
    "level" ∈ EventSlot.level.names ∧ EventSlot.level ≠ .timestamp ∧
      encoder.encode (record event ("level", .unsigned 0x7fffffffffffffff)) =
        encoder.encode (record event ("level", .text "9223372036854775807")) := by
  intro event encoder
  have hname : "level" ∈ EventSlot.level.names := by decide
  have hslot : EventSlot.level ≠ .timestamp := by decide
  obtain ⟨-, halike⟩ := integer_is_sent_as_its_text_iff encoder event hname hslot
  refine ⟨hname, hslot, ((halike 0x7fffffffffffffff).2.2 ?_)⟩
  exact fun _ => .inl (by decide)

/-- The level after the greatest one is sent as 7, while its text leaves the level of the event. -/
theorem level_beyond_the_greatest_differs_from_its_text :
    let event := (Event.new 1.5 "up").withLevel 6
    let encoder : Encoder := ⟨"web-1", FieldMap.empty⟩
    let number := record event ("level", .unsigned 0x8000000000000000)
    let text := record event ("level", .text "9223372036854775808")
    (encoder.record number).map Record.level = .ok (some 7) ∧
      (encoder.record text).map Record.level = .ok (some 6) ∧
      encoder.record number ≠ encoder.record text := by
  intro event encoder number text
  have hnumber : (encoder.record number).map Record.level = .ok (some 7) := by decide
  have htext : (encoder.record text).map Record.level = .ok (some 6) := by decide
  refine ⟨hnumber, htext, fun heq => ?_⟩
  rw [heq, htext] at hnumber
  cases hnumber

end Trace

end Gelf
