import Gelf.Json.Writer
import Gelf.Text.Utf8

/-!
# Records

A message as it goes over the wire: six slots with fixed names, and additional fields beside them.
-/

namespace Gelf

inductive Slot
  | version
  | host
  | shortMessage
  | fullMessage
  | timestamp
  | level
  deriving DecidableEq, Repr

namespace Slot

def name : Slot → String
  | .version => "version"
  | .host => "host"
  | .shortMessage => "short_message"
  | .fullMessage => "full_message"
  | .timestamp => "timestamp"
  | .level => "level"

def ofName? (name : String) : Option Slot :=
  [version, host, shortMessage, fullMessage, timestamp, level].find? fun slot => slot.name = name

theorem ofName?_name (slot : Slot) : ofName? slot.name = some slot := by
  cases slot <;> decide

end Slot

structure Record where
  version : String
  host : String
  shortMessage : String
  fullMessage : Option String
  timestamp : Option FiniteFloat
  level : Option UInt8
  /-- Fields under the names they have on the wire. -/
  additional : Json.Fields

namespace Record

open Json (Value)

/-- The members of a record in the order of the wire. Empty slots are left out. -/
def members (r : Record) : List (String × Value) :=
  [(Slot.version.name, .string r.version), (Slot.host.name, .string r.host),
    (Slot.shortMessage.name, .string r.shortMessage)] ++
  (r.fullMessage.map fun text => (Slot.fullMessage.name, Value.string text)).toList ++
  (r.timestamp.map fun x => (Slot.timestamp.name, Value.number (.real x))).toList ++
  (r.level.map fun n =>
    (Slot.level.name, Value.ofInteger (.ofUInt64 n.toUInt64))).toList ++
  r.additional.entries

def text (r : Record) : String := (Value.object r.members).text

def bytes (r : Record) : List UInt8 := Text.utf8 r.text

def write (r : Record) : Except Json.WriteError (List UInt8) :=
  (Value.object r.members).document.write.map Text.utf8

theorem write_eq_ok (r : Record) : r.write = .ok r.bytes := by
  rw [write, Value.write_document]
  rfl

end Record

end Gelf
