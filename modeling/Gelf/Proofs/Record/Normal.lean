import Gelf.Proofs.Json.Bounds
import Gelf.Proofs.Json.Printed
import Gelf.Proofs.Record.Steps

/-!
# Normal forms of records

A record that was read can be written and read again, and comes back as it is. Its fields may have
any names but those of slots and any values that a reader goes into, so what the text was like is
forgotten after the first reading.
-/

namespace Gelf

open Json (Gives Keeps Tree Value)
open Json.Grammar (IsText)

/-! ### Values without floats -/

namespace Json.Value

mutual

/-- Every number of the value is an integer, at every depth. -/
def FloatFree : Value → Prop
  | .number (.real _) => False
  | .array items => ItemsFloatFree items
  | .object members => MembersFloatFree members
  | _ => True

def ItemsFloatFree : List Value → Prop
  | [] => True
  | v :: vs => v.FloatFree ∧ ItemsFloatFree vs

def MembersFloatFree : List (String × Value) → Prop
  | [] => True
  | (_, v) :: ms => v.FloatFree ∧ MembersFloatFree ms

end

mutual

/-- A value without floats is the only one with its form up to floats. -/
theorem eq_of_eraseFloats (v : Value) (hv : v.FloatFree) {w : Value}
    (h : w.eraseFloats = v.eraseFloats) : w = v := by
  cases v with
  | null => cases w <;> simp_all [eraseFloats]
  | bool b => cases w <;> simp_all [eraseFloats]
  | string s => cases w <;> simp_all [eraseFloats]
  | number n =>
    cases n with
    | real x => exact hv.elim
    | integer i =>
      cases w with
      | number m => cases m <;> simp_all [eraseFloats, Number.eraseFloat]
      | _ => simp [eraseFloats] at h
  | array vs =>
    cases w with
    | array ws =>
      rw [eraseFloats, eraseFloats, Value.array.injEq] at h
      rw [eq_of_eraseItems vs hv h]
    | _ => simp [eraseFloats] at h
  | object ms =>
    cases w with
    | object ns =>
      rw [eraseFloats, eraseFloats, Value.object.injEq] at h
      rw [eq_of_eraseMembers ms hv h]
    | _ => simp [eraseFloats] at h

theorem eq_of_eraseItems (vs : List Value) (hvs : ItemsFloatFree vs) {ws : List Value}
    (h : eraseItems ws = eraseItems vs) : ws = vs := by
  cases vs with
  | nil =>
    cases ws with
    | nil => rfl
    | cons w ws => cases h
  | cons v vs =>
    cases ws with
    | nil => cases h
    | cons w ws =>
      rw [eraseItems, eraseItems, List.cons.injEq] at h
      rw [eq_of_eraseFloats v hvs.1 h.1, eq_of_eraseItems vs hvs.2 h.2]

theorem eq_of_eraseMembers (ms : List (String × Value)) (hms : MembersFloatFree ms)
    {ns : List (String × Value)} (h : eraseMembers ns = eraseMembers ms) : ns = ms := by
  cases ms with
  | nil =>
    cases ns with
    | nil => rfl
    | cons n ns => cases h
  | cons m ms =>
    cases ns with
    | nil => cases h
    | cons n ns =>
      obtain ⟨name, v⟩ := m
      obtain ⟨name', w⟩ := n
      rw [eraseMembers, eraseMembers, List.cons.injEq, Prod.mk.injEq] at h
      rw [h.1.1, eq_of_eraseFloats v hms.1 h.1.2, eq_of_eraseMembers ms hms.2 h.2]

end

end Json.Value

namespace Record

/-! ### Records that were read -/

/-- What is known of the fields of a draft: their names are not those of slots, and their values may
stand in a record. -/
def Draft.Readable (draft : Draft) : Prop :=
  ∀ e ∈ draft.additional.entries,
    Slot.ofName? e.1 = none ∧ e.2.IsWithin (Json.maxDepth - 1)

theorem gives_slotReader {draft : Draft} (h : draft.Readable) (slot : Slot) :
    Gives (draft.slotReader slot) Draft.Readable := by
  cases slot <;>
    · rw [Draft.slotReader]
      exact (Json.gives_true _).map fun _ _ => h

theorem keeps_take : Keeps Draft.take Draft.Readable := by
  intro draft name reader hdraft htake
  rw [Draft.take] at htake
  split at htake
  · rename_i slot _
    split at htake
    · cases htake
    · cases htake
      exact gives_slotReader hdraft slot
  · rename_i hname
    cases htake
    exact (Json.gives_value _).map fun v hv => Json.forall_mem_insert hdraft ⟨hname, hv⟩

theorem gives_reader : Gives reader Readable where
  of_run {s r t} hrun := by
    have hrun : run s = .ok (r, t) := hrun
    unfold run at hrun
    split at hrun
    · cases hrun
    split at hrun
    · split at hrun
      · cases hrun
      · rename_i draft t' hmembers
        obtain ⟨r, hcomplete, heq⟩ := Json.exists_of_map_eq_ok hrun
        cases heq
        have hdraft : draft.Readable := keeps_take.members (fun _ he => by cases he) hmembers
        obtain ⟨-, -, -, -, hadditional⟩ := complete_eq_ok_iff.1 hcomplete
        rw [Draft.Readable, hadditional] at hdraft
        exact
          { slots := fun e he => (hdraft e he).1
            ordered := Value.membersOrdered_of_forall fun e he => (hdraft e he).2.ordered
            depth := Value.membersDepth_le fun e he => (hdraft e he).2.depth_le }
    · cases hrun

theorem readable_of_read {b : List UInt8} {r : Record} (h : read b = .ok r) : r.Readable :=
  gives_reader.of_readAll h

/-! ### Reading again -/

theorem SameUpToFloats.eq {r r' : Record} (h : r.SameUpToFloats r') (htime : r.timestamp = none)
    (hfields : ∀ name v, r.additional.get? name = some v → v.FloatFree) : r' = r := by
  have htime' : r'.timestamp = r.timestamp := by
    have hsome := h.timestamp
    rw [htime] at hsome ⊢
    exact Option.isNone_iff_eq_none.1 (Option.isSome_eq_false_iff.1 hsome)
  have hadditional : r'.additional = r.additional := by
    refine FieldMap.ext fun name => ?_
    have hname := h.additional name
    cases hvalue : r.additional.get? name with
    | none =>
      rw [hvalue] at hname
      exact Option.map_eq_none_iff.1 hname
    | some v =>
      rw [hvalue] at hname
      obtain ⟨w, hw, herase⟩ := Option.map_eq_some_iff.1 hname
      rw [hw, Value.eq_of_eraseFloats v (hfields name v hvalue) herase]
  cases r
  cases r'
  rw [mk.injEq]
  exact ⟨h.version, h.host, h.shortMessage, h.fullMessage, htime', h.level, hadditional⟩

/-- **Normal forms.** A record that was read is written, and reading what was written gives it back
up to floats. Without floats it is the same record, which is written the same way again. -/
theorem written_record_is_read_back {b : List UInt8} {r : Record} (h : read b = .ok r) :
    ∃ c r', r.write = .ok c ∧ read c = .ok r' ∧ r.SameUpToFloats r' ∧
      (r.timestamp = none → (∀ name v, r.additional.get? name = some v → v.FloatFree) →
        r' = r ∧ r'.write = .ok c) := by
  obtain ⟨r', hread, hsame⟩ := exists_read_bytes (readable_of_read h)
  refine ⟨r.bytes, r', write_eq_ok r, hread, hsame, fun htime hfields => ?_⟩
  obtain rfl := hsame.eq htime hfields
  exact ⟨rfl, write_eq_ok r'⟩

/-- A level that is `null` is left out from then on, and an array stays as it is. -/
theorem null_level_is_forgotten :
    let members := [("short_message", Value.string "up"), ("level", .null),
      ("version", .string "1.1"), ("tags", .array [.null, .bool true]), ("host", .string "web-1")]
    ∃ c r, read (Text.utf8 (Value.object members).text) = .ok r ∧ r.level = none ∧
      r.write = .ok c ∧ read c = .ok r := by
  intro members
  have htext := Json.Grammar.isText_object members
  have hread : (read (Text.utf8 (Value.object members).text)).toOption = some
      { version := "1.1", host := "web-1", shortMessage := "up", fullMessage := none,
        timestamp := none, level := none,
        additional := FieldMap.empty.insert "tags" (.array [.null, .bool true]) } :=
    toOption_read htext
  have hok := Json.eq_ok_iff_toOption.2 hread
  obtain ⟨c, r', hwrite, hread', -, hexact⟩ := written_record_is_read_back hok
  obtain ⟨rfl, -⟩ := hexact rfl fun name v hv => by
    rw [FieldMap.get?_insert] at hv
    split at hv
    · cases hv
      exact ⟨trivial, trivial, trivial⟩
    · cases hv
  exact ⟨c, _, hok, rfl, hwrite, hread'⟩

end Record

end Gelf
