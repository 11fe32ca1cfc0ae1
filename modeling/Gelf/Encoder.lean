import Gelf.Fault
import Gelf.Event
import Gelf.Record.Basic
import Gelf.Text.Blank

/-!
# The encoder

Turns events into records. The encoder adds its host to events that have none, and its own fields to
those of the event, which win. Names of fields are cleaned and get a leading underscore on the wire.
-/

namespace Gelf

open Json (Fields Value)

def formatVersion : String := "1.1"

def isFieldChar (c : Char) : Bool := c.isAlphanum || c = '_' || c = '.' || c = '-'

/-- The name without its leading underscore, if it has one. Receivers reserve `_id`. -/
def fieldName? (name : String) : Option String :=
  let bare := match name.toList with
    | '_' :: cs => cs
    | cs => cs
  if bare = [] ∨ bare = ['i', 'd'] then none
  else if bare.all isFieldChar then some (String.ofList bare)
  else none

/-- The value of an additional field on the wire, which is a string or a number. Other values are
sent as their text, and `null` is not sent. -/
def fieldValue? : Value → Option Value
  | .null => none
  | .string s => some (.string s)
  | .number n => some (.number n)
  | .bool b => some (.string (Json.boolText b))
  | .array items => some (.string (Value.array items).text)
  | .object members => some (.string (Value.object members).text)

def wireField? (field : String × Value) : Option (String × Value) :=
  match fieldName? field.1, fieldValue? field.2 with
  | some name, some value => some ("_" ++ name, value)
  | _, _ => none

/-- The additional fields of a record: the fields of the encoder and then those of the event, each
in order of their names. Where two get one name on the wire, the later one stays. -/
def wireFields (persistent fields : Fields) : Fields :=
  FieldMap.ofList ((persistent.entries ++ fields.entries).filterMap wireField?)

/-- What the records of one source have in common. -/
structure Encoder where
  host : String
  fields : Fields := FieldMap.empty

namespace Encoder

def addField (encoder : Encoder) (name : String) (value : Value) : Encoder :=
  { encoder with fields := encoder.fields.insert name value }

def hostOf (encoder : Encoder) (event : Event) : String :=
  match event.host with
  | some host => if host = "" then encoder.host else host
  | none => encoder.host

/-- The time of an event, when it is a time. Receivers stamp records without one. -/
def timestampOf (event : Event) : Option FiniteFloat :=
  (FiniteFloat.ofFloat? event.timestamp).filter fun x => 0 ≤ x.val

/-- The record of an event. A blank message is refused. -/
def record (encoder : Encoder) (event : Event) : Except Fault Record :=
  if Text.blank event.shortMessage then .error (.validation "short_message is empty")
  else .ok
    { version := formatVersion
      host := encoder.hostOf event
      shortMessage := event.shortMessage
      fullMessage := event.fullMessage
      timestamp := timestampOf event
      level := event.level.map fun n => UInt8.ofNat (Severity.ofInt n).number
      additional := wireFields encoder.fields event.fields }

def writeFault (e : Json.WriteError) : Fault :=
  .encoding { kind := .invalidData, text := e.message }

def encode (encoder : Encoder) (event : Event) : Except Fault (List UInt8) :=
  match encoder.record event with
  | .error fault => .error fault
  | .ok r => r.write.mapError writeFault

/-- A record is always written. -/
theorem encode_eq (encoder : Encoder) (event : Event) :
    encoder.encode event = (encoder.record event).map Record.bytes := by
  rw [encode]
  cases encoder.record event with
  | error fault => rfl
  | ok r =>
    simp only [Record.write_eq_ok]
    rfl

end Encoder

end Gelf
