import Gelf.Json.Value
import Gelf.Severity

/-!
# Log events

One event as it is handed to a shipper, before anything about it is checked.
-/

namespace Gelf

@[ext]
structure Event where
  /-- Seconds since the epoch. -/
  timestamp : Float
  /-- A syslog severity, which need not be in range. -/
  level : Option Int
  shortMessage : String
  fullMessage : Option String
  /-- Where the event comes from, when that is not the host of the encoder. -/
  host : Option String
  /-- Additional fields under the names they were given. -/
  fields : Json.Fields

namespace Event

/-- An event with only a message, stamped by the clock. -/
def new (clock : Float) (shortMessage : String) : Event where
  timestamp := clock
  level := none
  shortMessage
  fullMessage := none
  host := none
  fields := FieldMap.empty

def withLevel (event : Event) (level : Int) : Event := { event with level := some level }

def withTimestamp (event : Event) (timestamp : Float) : Event := { event with timestamp }

def withFullMessage (event : Event) (text : String) : Event :=
  { event with fullMessage := some text }

def withHost (event : Event) (host : String) : Event := { event with host := some host }

def withField (event : Event) (name : String) (value : Json.Value) : Event :=
  { event with fields := event.fields.insert name value }

end Event

end Gelf
