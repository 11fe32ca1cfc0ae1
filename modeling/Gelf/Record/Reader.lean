import Gelf.Fault
import Gelf.Json.Reader
import Gelf.Record.Basic

/-!
# Reading records

A record is read member by member. Each slot takes one kind of value and may occur once, and every
other name is an additional field, whose last value stays. A value of the wrong kind is refused
where it stands, before anything behind it is looked at.
-/

namespace Gelf

namespace Json

/-- The kind of the value at the front of a text, which has no place there. Numbers, strings and
literals are read to their end, and arrays and objects are known by their bracket. -/
def found (s : List UInt8) : Except ReadError Found :=
  match s with
  | [] => .error .endInValue
  | b :: r =>
    if b = octet '[' then .ok .array
    else if b = octet '{' then .ok .object
    else match valueRun none (b :: r) with
      | .error e => .error e
      | .ok (.bool b, _) => .ok (.bool b)
      | .ok (.number n, _) => .ok (.number n)
      | .ok (.string text, _) => .ok (.string text)
      | .ok (_, _) => .ok .null

/-- The error at a value that is not of the wanted kind. -/
def misplaced (wanted : String) (s : List UInt8) : ReadError :=
  match found s with
  | .error e => e
  | .ok f => .mismatch f wanted

/-- Reads a value that starts with an octet of the wanted kind, and refuses any other. -/
def scalarRun {α : Type} (wanted : String) (starts : UInt8 → Bool)
    (accept : Value → Except ReadError α) (s : List UInt8) : Except ReadError (α × List UInt8) :=
  match skipSpace s with
  | [] => .error .endInValue
  | b :: r =>
    if starts b then
      match valueRun none (b :: r) with
      | .error e => .error e
      | .ok (v, t) => (accept v).map fun a => (a, t)
    else .error (misplaced wanted (b :: r))

theorem scalarRun_length_le {α : Type} {wanted : String} {starts : UInt8 → Bool}
    {accept : Value → Except ReadError α} {s r : List UInt8} {a : α}
    (h : scalarRun wanted starts accept s = .ok (a, r)) : r.length ≤ s.length := by
  unfold scalarRun at h
  split at h
  · cases h
  · rename_i b t hs
    have hle := length_skipSpace_le s
    rw [hs] at hle
    split at h
    · split at h
      · cases h
      · rename_i v t' hv
        cases ha : accept v with
        | error e => simp [ha, Except.map] at h
        | ok a' =>
          simp only [ha, Except.map, Except.ok.injEq, Prod.mk.injEq] at h
          exact h.2 ▸ Nat.le_trans (valueRun_length_le hv) hle
    · cases h

def stringReader : Reader String :=
  ⟨scalarRun "a string" (· = octet '"') fun
    | .string text => .ok text
    | _ => .error .expectedValue, scalarRun_length_le⟩

/-- A number begins with its sign or with a digit. -/
def startsNumber (b : UInt8) : Bool := b = octet '-' || isDigit b

def floatReader : Reader FiniteFloat :=
  ⟨scalarRun "f64" startsNumber fun
    | .number n => match FiniteFloat.ofFloat? n.toFloat with
      | some x => .ok x
      | none => .error .numberOutOfRange
    | _ => .error .expectedValue, scalarRun_length_le⟩

def octetReader : Reader UInt8 :=
  ⟨scalarRun "u8" startsNumber fun
    | .number (.integer n) =>
      if 0 ≤ n.val ∧ n.val ≤ 255 then .ok (UInt8.ofNat n.val.toNat)
      else .error (.outOfRange n "u8")
    | .number (.real x) => .error (.mismatch (.number (.real x)) "u8")
    | _ => .error .expectedValue, scalarRun_length_le⟩

def optionalRun {α : Type} (reader : Reader α) (s : List UInt8) :
    Except ReadError (Option α × List UInt8) :=
  match skipSpace s with
  | [] => (reader.run s).map fun (a, t) => (some a, t)
  | b :: r =>
    if b = octet 'n' then (literal ['u', 'l', 'l'] r).map fun t => (none, t)
    else (reader.run s).map fun (a, t) => (some a, t)

theorem optionalRun_length_le {α : Type} {reader : Reader α} {s r : List UInt8} {a : Option α}
    (h : optionalRun reader s = .ok (a, r)) : r.length ≤ s.length := by
  unfold optionalRun at h
  split at h
  · exact length_le_of_map reader.length_le h
  · rename_i b t hs
    have hle := length_skipSpace_le s
    rw [hs, List.length_cons] at hle
    split at h
    · cases hl : literal ['u', 'l', 'l'] t with
      | error e => simp [hl, Except.map] at h
      | ok t' =>
        simp only [hl, Except.map, Except.ok.injEq, Prod.mk.injEq] at h
        exact h.2 ▸ Nat.le_trans (literal_length_le hl) (Nat.le_of_succ_le hle)
    · exact length_le_of_map reader.length_le h

def Reader.optional {α : Type} (reader : Reader α) : Reader (Option α) :=
  ⟨optionalRun reader, optionalRun_length_le⟩

end Json

namespace Record

open Json (ReadError Reader Value)

/-- A record whose members are still being read. The outer option of an optional slot says whether
its name occurred. -/
structure Draft where
  version : Option String := none
  host : Option String := none
  shortMessage : Option String := none
  fullMessage : Option (Option String) := none
  timestamp : Option (Option FiniteFloat) := none
  level : Option (Option UInt8) := none
  additional : Json.Fields := FieldMap.empty

namespace Draft

def has (draft : Draft) : Slot → Bool
  | .version => draft.version.isSome
  | .host => draft.host.isSome
  | .shortMessage => draft.shortMessage.isSome
  | .fullMessage => draft.fullMessage.isSome
  | .timestamp => draft.timestamp.isSome
  | .level => draft.level.isSome

def slotReader (draft : Draft) : Slot → Reader Draft
  | .version => Json.stringReader.map fun text => { draft with version := some text }
  | .host => Json.stringReader.map fun text => { draft with host := some text }
  | .shortMessage => Json.stringReader.map fun text => { draft with shortMessage := some text }
  | .fullMessage =>
    Json.stringReader.optional.map fun text => { draft with fullMessage := some text }
  | .timestamp => Json.floatReader.optional.map fun x => { draft with timestamp := some x }
  | .level => Json.octetReader.optional.map fun n => { draft with level := some n }

/-- Takes in a member. A slot that occurred is refused by its name. -/
def take (draft : Draft) (name : String) : Except ReadError (Reader Draft) :=
  match Slot.ofName? name with
  | some slot =>
    -- The refusal comes before the colon is looked at.
    if draft.has slot then .error (.duplicateField slot.name) else .ok (draft.slotReader slot)
  | none =>
    .ok ((Json.value (Json.maxDepth - 1)).map fun v =>
      { draft with additional := draft.additional.insert name v })

/-- The record, when the slots that every record has are there. -/
def complete (draft : Draft) : Except ReadError Record :=
  match draft.version, draft.host, draft.shortMessage with
  | none, _, _ => .error (.missingField Slot.version.name)
  | _, none, _ => .error (.missingField Slot.host.name)
  | _, _, none => .error (.missingField Slot.shortMessage.name)
  | some version, some host, some shortMessage =>
    .ok { version, host, shortMessage
          fullMessage := draft.fullMessage.join
          timestamp := draft.timestamp.join
          level := draft.level.join
          additional := draft.additional }

end Draft

def run (s : List UInt8) : Except ReadError (Record × List UInt8) :=
  match Json.skipSpace s with
  | [] => .error .endInValue
  | b :: r =>
    if b = Json.octet '{' then
      match Json.members Draft.take {} r with
      | .error e => .error e
      | .ok (draft, t) => draft.complete.map fun record => (record, t)
    else .error (Json.misplaced "struct GelfRecord" (b :: r))

theorem run_length_le {s r : List UInt8} {record : Record} (h : run s = .ok (record, r)) :
    r.length ≤ s.length := by
  unfold run at h
  split at h
  · cases h
  · rename_i b t hs
    have hle := Json.length_skipSpace_le s
    rw [hs, List.length_cons] at hle
    split at h
    · split at h
      · cases h
      · rename_i draft t' hm
        cases hc : draft.complete with
        | error e => simp [hc, Except.map] at h
        | ok record' =>
          simp only [hc, Except.map, Except.ok.injEq, Prod.mk.injEq] at h
          exact h.2 ▸ Nat.le_trans (Json.members_length_le hm) (Nat.le_of_succ_le hle)
    · cases h

def reader : Reader Record := ⟨run, run_length_le⟩

/-- Reads a payload that is neither compressed nor in chunks. -/
def read (s : List UInt8) : Except ReadError Record := reader.readAll s

def readFault (e : ReadError) : Fault :=
  .encoding { kind := if e.atEnd then .unexpectedEof else .invalidData, text := e.message }

end Record

end Gelf
