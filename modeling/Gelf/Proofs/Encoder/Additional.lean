import Gelf.Proofs.Encoder.Fields
import Gelf.Proofs.Text.Order

/-!
# The additional fields of a record

A record has a field for every name under which the event or the encoder carries a value. Of the
entries for one name, those of the event come before those of the encoder, and in one map the last
spelling in the order of UTF-8 decides. Entries with `null` and those whose names are refused make
no difference.
-/

namespace Gelf

open Json (Fields Value)

/-! ### What decides -/

/-- The names of fields that are sent under `n`, behind an underscore. -/
def Spells (n name : String) : Prop := name = "_" ++ n ∨ name = n ∧ hasUnderscore n = false

/-- The map has an entry that is sent under `n`. -/
structure Carries (fields : Fields) (n name : String) (value : Value) : Prop where
  spells : Spells n name
  entry : fields.get? name = some value
  ne_null : value ≠ .null

def Holds (fields : Fields) (n : String) : Prop := ∃ name value, Carries fields n name value

/-- Of the entries that are sent under one name, the last one in the order of UTF-8 decides. -/
structure Decides (fields : Fields) (n name : String) (value : Value) : Prop
    extends Carries fields n name value where
  last : ∀ other v, Carries fields n other v → Text.utf8 other ≤ Text.utf8 name

/-- Receivers take strings and numbers. Anything else is sent as its text. -/
inductive SentAs : Value → Value → Prop
  | string (s : String) : SentAs (.string s) (.string s)
  | number (n : Json.Number) : SentAs (.number n) (.number n)
  | true : SentAs (.bool true) (.string "true")
  | false : SentAs (.bool false) (.string "false")
  | array (items : List Value) : SentAs (.array items) (.string (Value.array items).text)
  | object (members : List (String × Value)) :
      SentAs (.object members) (.string (Value.object members).text)

theorem fieldValue?_eq_some_iff {value v : Value} :
    fieldValue? value = some v ↔ SentAs value v := by
  constructor
  · intro h
    cases value with
    | null => cases h
    | string s => cases h; exact .string s
    | number n => cases h; exact .number n
    | bool b =>
      cases h
      cases b with
      | false => exact .false
      | true => exact .true
    | array items => cases h; exact .array items
    | object members => cases h; exact .object members
  · rintro (s | n | _ | _ | items | members) <;> rfl

theorem exists_fieldValue?_iff {value : Value} :
    (∃ v, fieldValue? value = some v) ↔ value ≠ .null := by
  cases value <;> simp [fieldValue?]

theorem valueUnder_eq_some_iff {n : String} (hn : IsWireName n) {field : String × Value}
    {v : Value} : valueUnder n field = some v ↔ Spells n field.1 ∧ SentAs field.2 v := by
  have hname : fieldName? field.1 = some n ↔ Spells n field.1 :=
    fieldName?_eq_some_iff.trans (and_iff_right hn)
  rw [valueUnder, ← hname, ← fieldValue?_eq_some_iff]
  split
  · rename_i heq
    exact (and_iff_right heq).symm
  · rename_i hne
    simp only [reduceCtorEq, false_iff]
    exact fun h => hne h.1

theorem exists_valueUnder_iff {fields : Fields} {n : String} (hn : IsWireName n) {name : String}
    {value : Value} (hmem : (name, value) ∈ fields.entries) :
    (∃ v, valueUnder n (name, value) = some v) ↔ Carries fields n name value := by
  simp only [valueUnder_eq_some_iff hn, exists_and_left, ← fieldValue?_eq_some_iff,
    exists_fieldValue?_iff]
  constructor
  · rintro ⟨hspells, hne⟩
    exact ⟨hspells, FieldMap.get?_eq_some_iff.2 hmem, hne⟩
  · rintro ⟨hspells, -, hne⟩
    exact ⟨hspells, hne⟩

/-! ### The last entry -/

/-- From behind, the first result is the one of the entry with the last name. -/
theorem findSome?_reverse_eq_some_iff {α β : Type} {entries : List (String × α)}
    (h : Increasing entries) {f : String × α → Option β} {b : β} :
    entries.reverse.findSome? f = some b ↔
      ∃ e ∈ entries, f e = some b ∧ ∀ other ∈ entries, (∃ c, f other = some c) → other.1 ≤ e.1 := by
  rw [List.findSome?_eq_some_iff]
  constructor
  · rintro ⟨behind, e, before, heq, hb, hnone⟩
    have hentries : entries = before.reverse ++ e :: behind.reverse := by
      rw [← List.reverse_reverse entries, heq, List.reverse_append, List.reverse_cons,
        List.append_assoc]
      rfl
    subst hentries
    refine ⟨e, List.mem_append_right _ List.mem_cons_self, hb, fun other hother => ?_⟩
    rintro ⟨c, hc⟩
    rcases List.mem_append.1 hother with hbefore | hrest
    · have hlt := (List.pairwise_append.1 h).2.2 other hbefore e List.mem_cons_self
      exact String.not_lt.1 (String.lt_asymm hlt)
    · rcases List.mem_cons.1 hrest with rfl | hbehind
      · exact String.le_refl _
      · rw [hnone other (List.mem_reverse.1 hbehind)] at hc
        cases hc
  · rintro ⟨e, hmem, hb, hlast⟩
    obtain ⟨before, behind, rfl⟩ := List.append_of_mem hmem
    refine ⟨behind.reverse, e, before.reverse, by simp, hb, fun other hother => ?_⟩
    have hbehind : other ∈ behind := List.mem_reverse.1 hother
    have hlt : e.1 < other.1 :=
      (List.pairwise_cons.1 (List.pairwise_append.1 h).2.1).1 other hbehind
    rw [Option.eq_none_iff_forall_ne_some]
    intro c hc
    have hle := hlast other (List.mem_append_right _ (List.mem_cons_of_mem e hbehind)) ⟨c, hc⟩
    exact String.not_lt.2 hle hlt

/-- **One map.** What a map sends is the value of the entry that decides. -/
theorem wireValue?_eq_some_iff {fields : Fields} {n : String} (hn : IsWireName n) {v : Value} :
    wireValue? fields n = some v ↔ ∃ name value, Decides fields n name value ∧ SentAs value v := by
  rw [← findSome?_valueUnder fields hn, findSome?_reverse_eq_some_iff fields.increasing]
  constructor
  · rintro ⟨⟨name, value⟩, hmem, hvalue, hlast⟩
    have hcarries := (exists_valueUnder_iff hn hmem).1 ⟨v, hvalue⟩
    refine ⟨name, value, ⟨hcarries, fun other w hother => ?_⟩,
      ((valueUnder_eq_some_iff hn).1 hvalue).2⟩
    have hmem' := FieldMap.get?_eq_some_iff.1 hother.entry
    exact Text.utf8_le_iff.2 (hlast _ hmem' ((exists_valueUnder_iff hn hmem').2 hother))
  · rintro ⟨name, value, hdecides, hsent⟩
    refine ⟨(name, value), FieldMap.get?_eq_some_iff.1 hdecides.entry,
      (valueUnder_eq_some_iff hn).2 ⟨hdecides.spells, hsent⟩, fun other hmem hother => ?_⟩
    exact Text.utf8_le_iff.1 (hdecides.last _ _ ((exists_valueUnder_iff hn hmem).1 hother))

theorem isSome_wireValue?_iff {fields : Fields} {n : String} (hn : IsWireName n) :
    (wireValue? fields n).isSome = true ↔ Holds fields n := by
  rw [← findSome?_valueUnder fields hn, List.findSome?_isSome_iff]
  constructor
  · rintro ⟨⟨name, value⟩, hmem, hvalue⟩
    have hmem' := List.mem_reverse.1 hmem
    exact ⟨name, value, (exists_valueUnder_iff hn hmem').1 (Option.isSome_iff_exists.1 hvalue)⟩
  · rintro ⟨name, value, hcarries⟩
    have hmem := FieldMap.get?_eq_some_iff.1 hcarries.entry
    exact ⟨(name, value), List.mem_reverse.2 hmem,
      Option.isSome_iff_exists.2 ((exists_valueUnder_iff hn hmem).2 hcarries)⟩

theorem wireValue?_eq_none_iff {fields : Fields} {n : String} (hn : IsWireName n) :
    wireValue? fields n = none ↔ ¬ Holds fields n := by
  rw [← isSome_wireValue?_iff hn, Option.not_isSome_iff_eq_none]

/-! ### Both maps -/

/-- What is sent under `n` is decided by the event if it holds a value for it, and else by the
encoder. -/
def DecidesOver (persistent fields : Fields) (n name : String) (value : Value) : Prop :=
  Decides fields n name value ∨ ¬ Holds fields n ∧ Decides persistent n name value

/-- Two maps have the same values under names that are sent. -/
def SendAlike (fields others : Fields) : Prop :=
  ∀ n, IsWireName n → ∀ name value, Carries fields n name value ↔ Carries others n name value

theorem exists_of_get?_wireFields {persistent fields : Fields} {wire : String} {v : Value}
    (h : (wireFields persistent fields).get? wire = some v) :
    ∃ n, wire = "_" ++ n ∧ IsWireName n := by
  obtain ⟨e, -, he⟩ := List.mem_filterMap.1 (FieldMap.mem_of_get?_ofList h)
  rw [wireField?] at he
  split at he
  · rename_i n _ hname _
    cases he
    exact ⟨n, rfl, (fieldName?_eq_some_iff.1 hname).1⟩
  · cases he

/-- Fields on the wire are equal if they are under the names that can be there. -/
theorem wireFields_ext {persistent fields persistents others : Fields}
    (h : ∀ n, IsWireName n → (wireFields persistent fields).get? ("_" ++ n) =
      (wireFields persistents others).get? ("_" ++ n)) :
    wireFields persistent fields = wireFields persistents others := by
  ext wire v
  by_cases hwire : ∃ n, wire = "_" ++ n ∧ IsWireName n
  · obtain ⟨n, rfl, hn⟩ := hwire
    rw [h n hn]
  · exact iff_of_false (fun hv => hwire (exists_of_get?_wireFields hv))
      fun hv => hwire (exists_of_get?_wireFields hv)

theorem isSome_get?_wireFields_iff {persistent fields : Fields} {wire : String} :
    ((wireFields persistent fields).get? wire).isSome = true ↔
      ∃ n, wire = "_" ++ n ∧ IsWireName n ∧ (Holds fields n ∨ Holds persistent n) := by
  have hname {n : String} (hn : IsWireName n) :
      ((wireFields persistent fields).get? ("_" ++ n)).isSome = true ↔
        Holds fields n ∨ Holds persistent n := by
    rw [get?_wireFields _ _ hn, Option.isSome_or, Bool.or_eq_true, isSome_wireValue?_iff hn,
      isSome_wireValue?_iff hn]
  constructor
  · intro h
    obtain ⟨v, hv⟩ := Option.isSome_iff_exists.1 h
    obtain ⟨n, rfl, hn⟩ := exists_of_get?_wireFields hv
    exact ⟨n, rfl, hn, (hname hn).1 h⟩
  · rintro ⟨n, rfl, hn, hholds⟩
    exact (hname hn).2 hholds

theorem get?_wireFields_eq_some_iff {persistent fields : Fields} {n : String} {v : Value} :
    (wireFields persistent fields).get? ("_" ++ n) = some v ↔
      IsWireName n ∧ ∃ name value, DecidesOver persistent fields n name value ∧ SentAs value v := by
  constructor
  · intro h
    obtain ⟨m, heq, hm⟩ := exists_of_get?_wireFields h
    obtain rfl : n = m := (String.append_right_inj "_").1 heq
    rw [get?_wireFields _ _ hm, Option.or_eq_some_iff] at h
    refine ⟨hm, ?_⟩
    rcases h with hfields | ⟨hnone, hpersistent⟩
    · obtain ⟨name, value, hdecides, hsent⟩ := (wireValue?_eq_some_iff hm).1 hfields
      exact ⟨name, value, .inl hdecides, hsent⟩
    · obtain ⟨name, value, hdecides, hsent⟩ := (wireValue?_eq_some_iff hm).1 hpersistent
      exact ⟨name, value, .inr ⟨(wireValue?_eq_none_iff hm).1 hnone, hdecides⟩, hsent⟩
  · rintro ⟨hn, name, value, hdecides | ⟨hnot, hdecides⟩, hsent⟩
    · have hfields := (wireValue?_eq_some_iff hn).2 ⟨name, value, hdecides, hsent⟩
      rw [get?_wireFields _ _ hn, hfields, Option.some_or]
    · have hpersistent := (wireValue?_eq_some_iff hn).2 ⟨name, value, hdecides, hsent⟩
      rw [get?_wireFields _ _ hn, (wireValue?_eq_none_iff hn).2 hnot, hpersistent,
        Option.none_or]

theorem Decides.of_carries_iff {fields others : Fields} {n name : String} {value : Value}
    (hcarries : ∀ name value, Carries fields n name value ↔ Carries others n name value)
    (h : Decides fields n name value) : Decides others n name value :=
  ⟨(hcarries name value).1 h.toCarries,
    fun other v hother => h.last other v ((hcarries other v).2 hother)⟩

theorem SendAlike.wireValue?_eq {fields others : Fields} (h : SendAlike fields others) {n : String}
    (hn : IsWireName n) : wireValue? fields n = wireValue? others n := by
  have hdecides (name : String) (value : Value) :
      Decides fields n name value ↔ Decides others n name value :=
    ⟨.of_carries_iff (h n hn), .of_carries_iff fun name value => (h n hn name value).symm⟩
  ext v
  rw [wireValue?_eq_some_iff hn, wireValue?_eq_some_iff hn]
  simp only [hdecides]

theorem SendAlike.wireFields_eq {persistent fields persistents others : Fields}
    (hpersistent : SendAlike persistent persistents) (hfields : SendAlike fields others) :
    wireFields persistent fields = wireFields persistents others := by
  refine wireFields_ext fun n hn => ?_
  rw [get?_wireFields _ _ hn, get?_wireFields _ _ hn, hfields.wireValue?_eq hn,
    hpersistent.wireValue?_eq hn]

/-! ### Records -/

/-- Letters and digits without marks, and three signs. -/
def IsNameChar (c : Char) : Prop :=
  ('A' ≤ c ∧ c ≤ 'Z') ∨ ('a' ≤ c ∧ c ≤ 'z') ∨ ('0' ≤ c ∧ c ≤ '9') ∨ c = '_' ∨ c = '.' ∨ c = '-'

theorem isFieldChar_iff {c : Char} : isFieldChar c = true ↔ IsNameChar c := by
  have hrange (a b : Char) : (decide (a ≤ c) && decide (c ≤ b)) = true ↔ a ≤ c ∧ c ≤ b := by
    rw [Bool.and_eq_true, decide_eq_true_iff, decide_eq_true_iff]
  have hupper : c.isUpper = true ↔ 'A' ≤ c ∧ c ≤ 'Z' := decide_eq_true_iff
  have hlower : c.isLower = true ↔ 'a' ≤ c ∧ c ≤ 'z' := hrange 'a' 'z'
  have hdigit : c.isDigit = true ↔ '0' ≤ c ∧ c ≤ '9' := hrange '0' '9'
  have halphanum : c.isAlphanum = ((c.isUpper || c.isLower) || c.isDigit) := rfl
  simp only [isFieldChar, IsNameChar, halphanum, Bool.or_eq_true, decide_eq_true_iff, hupper,
    hlower, hdigit, or_assoc]

theorem isWireName_iff {n : String} :
    IsWireName n ↔ n ≠ "" ∧ n ≠ "id" ∧ ∀ c ∈ n.toList, IsNameChar c := by
  simp only [← isFieldChar_iff]
  exact ⟨fun h => ⟨h.ne_empty, h.ne_id, h.allowed⟩, fun h => ⟨h.1, h.2.1, h.2.2⟩⟩

namespace Encoder

/-- **Additional fields.** An event whose message is not blank has a record. It has just the fields
for which the event or the encoder holds a value, each as the entry that decides has it. Entries
that are not sent can be put in, taken out or changed. -/
theorem additional_is_exact (encoder : Encoder) (event : Event)
    (hmessage : ¬ Text.blank event.shortMessage = true) :
    ∃ r, encoder.record event = .ok r ∧
      (∀ wire, (r.additional.get? wire).isSome = true ↔
        ∃ n, wire = "_" ++ n ∧ (n ≠ "" ∧ n ≠ "id" ∧ ∀ c ∈ n.toList, IsNameChar c) ∧
          (Holds event.fields n ∨ Holds encoder.fields n)) ∧
      (∀ n v, r.additional.get? ("_" ++ n) = some v ↔
        IsWireName n ∧
          ∃ name value, DecidesOver encoder.fields event.fields n name value ∧ SentAs value v) ∧
      ∀ (other : Encoder) (changed : Event) (r' : Record), other.record changed = .ok r' →
        SendAlike encoder.fields other.fields → SendAlike event.fields changed.fields →
          r'.additional = r.additional := by
  obtain ⟨r, hrecord⟩ := @exists_record_of_not_blank encoder event hmessage
  have hadditional := additional_of_record_eq_ok hrecord
  refine ⟨r, hrecord, fun wire => ?_, fun n v => ?_, fun other changed r' hother henc hev => ?_⟩
  · simp only [hadditional, isSome_get?_wireFields_iff, isWireName_iff]
  · rw [hadditional]
    exact get?_wireFields_eq_some_iff
  · rw [hadditional, additional_of_record_eq_ok hother]
    exact (henc.wireFields_eq hev).symm

/-- Behind an upper-case letter the spelling with the underscore decides, and `null` leaves the
field of the encoder alone. -/
theorem underscore_decides_for_zone :
    let encoder : Encoder := ⟨"web-1", FieldMap.ofList [("env", .string "prod")]⟩
    let event := (((Event.new 1.5 "up").withField "_Zone" (.bool true)).withField "Zone"
      (.string "eu")).withField "env" .null
    ∃ r, encoder.record event = .ok r ∧ r.additional.get? "_Zone" = some (.string "true") ∧
      r.additional.get? "_env" = some (.string "prod") ∧
      (r.additional.get? "_id").isSome = false := by
  intro encoder event
  obtain ⟨r, hrecord, hkeys, hvalues, -⟩ := additional_is_exact encoder event (by decide)
  refine ⟨r, hrecord, ?_, ?_, ?_⟩
  · refine (hvalues "Zone" _).2 ⟨by decide, "_Zone", .bool true, .inl ⟨⟨.inl rfl, rfl, nofun⟩, ?_⟩,
      .true⟩
    rintro other v ⟨rfl | ⟨rfl, -⟩, -, -⟩
    · exact Text.utf8_le_iff.2 (String.le_refl _)
    · exact Text.utf8_le_iff.2 (by decide)
  · refine (hvalues "env" _).2 ⟨by decide, "env", .string "prod", .inr ⟨?_, ?_⟩, .string _⟩
    · rintro ⟨name, value, rfl | ⟨rfl, -⟩, hentry, hne⟩
      · cases hentry
      · cases hentry
        exact hne rfl
    · refine ⟨⟨.inr ⟨rfl, by decide⟩, rfl, nofun⟩, ?_⟩
      rintro other v ⟨rfl | ⟨rfl, -⟩, hentry, -⟩
      · cases hentry
      · exact Text.utf8_le_iff.2 (String.le_refl _)
  · rw [Bool.eq_false_iff]
    intro hid
    obtain ⟨n, heq, ⟨-, hne, -⟩, -⟩ := (hkeys "_id").1 hid
    have hid' : "_" ++ "id" = "_" ++ n := heq
    exact hne ((String.append_right_inj "_").1 hid').symm

end Encoder

end Gelf
