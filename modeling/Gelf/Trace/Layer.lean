import Gelf.Decimal.Notation
import Gelf.Decimal.Reading
import Gelf.Diagnostics
import Gelf.Event
import Gelf.Text.Blank

/-!
# Traced events

Turns traced events into log events. The metadata of a traced event become fields. Recorded fields
with the name of a slot fill the slot if they fit, and all others become fields, which win over the
metadata.
-/

namespace Gelf.Trace

open Json (Value)

inductive Recorded
  /-- A text, or any value that is recorded by its text. -/
  | text (s : String)
  | signed (n : Int64)
  | unsigned (n : UInt64)
  | real (x : Float)
  | bool (b : Bool)

structure TraceEvent where
  name : String
  target : String
  level : TraceLevel
  file : Option String := none
  line : Option UInt32 := none
  modulePath : Option String := none
  span : Option String := none
  /-- The recorded fields in order. A name may occur again. -/
  fields : List (String × Recorded) := []

structure Layer where
  spans : Bool := true
  fileNames : Bool := true
  lineNumbers : Bool := true
  modulePaths : Bool := true
  deriving DecidableEq, Repr

inductive EventSlot
  | message
  | fullMessage
  | host
  | level
  | timestamp
  deriving DecidableEq, Repr

def EventSlot.ofName? (name : String) : Option EventSlot :=
  if name = "message" ∨ name = "short_message" then some .message
  else if name = "full_message" then some .fullMessage
  else if name = "host" then some .host
  else if name = "level" then some .level
  else if name = "timestamp" then some .timestamp
  else none

/-- Records a text. A level or a timestamp that cannot be read is ignored. -/
def recordText (event : Event) (name text : String) : Event :=
  match EventSlot.ofName? name with
  | some .message => { event with shortMessage := text }
  | some .fullMessage => event.withFullMessage text
  | some .host => event.withHost text
  | some .level =>
    match Decimal.readInt64? (Text.trim text) with
    | some n => event.withLevel n
    | none => event
  | some .timestamp =>
    match Decimal.readFloat? (Text.trim text) with
    | some x => event.withTimestamp x
    | none => event
  | none => event.withField name (.string text)

/-- The greatest level that is kept. -/
def maxLevel : Int := 0x7fffffffffffffff

def recordInteger (event : Event) (name : String) (n : Json.Integer) : Event :=
  match EventSlot.ofName? name with
  | some .level => event.withLevel (min n.val maxLevel)
  | some .timestamp => event.withTimestamp n.toFloat
  | some _ => recordText event name (String.ofList (Json.integerChars n.val))
  | none => event.withField name (.ofInteger n)

/-- A float as a field. Floats without a decimal are kept as text. -/
def floatValue (x : Float) : Value :=
  match FiniteFloat.ofFloat? x with
  | some y => .number (.real y)
  | none => .string (Decimal.plainText x)

/-- Records a float. It is never a level. -/
def recordFloat (event : Event) (name : String) (x : Float) : Event :=
  match EventSlot.ofName? name with
  | some .level => event
  | some .timestamp => event.withTimestamp x
  | some _ => recordText event name (Decimal.plainText x)
  | none => event.withField name (floatValue x)

/-- Records a truth value. It is neither a level nor a timestamp. -/
def recordBool (event : Event) (name : String) (b : Bool) : Event :=
  match EventSlot.ofName? name with
  | some .level | some .timestamp => event
  | _ => recordText event name (Json.boolText b)

def record (event : Event) (field : String × Recorded) : Event :=
  match field.2 with
  | .text s => recordText event field.1 s
  | .signed n => recordInteger event field.1 (.ofInt64 n)
  | .unsigned n => recordInteger event field.1 (.ofUInt64 n)
  | .real x => recordFloat event field.1 x
  | .bool b => recordBool event field.1 b

namespace Layer

def metadata (layer : Layer) (traced : TraceEvent) : List (String × Value) :=
  let text (wanted : Bool) (name : String) (s : Option String) : List (String × Value) :=
    if wanted then (s.map fun s => (name, Value.string s)).toList else []
  [("target", .string traced.target)] ++
  text layer.spans "span" traced.span ++
  text layer.fileNames "file" traced.file ++
  (if layer.lineNumbers then
    (traced.line.map fun n => ("line", Value.ofInteger (.ofUInt64 n.toUInt64))).toList else []) ++
  text layer.modulePaths "module_path" traced.modulePath

/-- The log event of a traced event. Reports of a shipper have none. An event without a message gets
the name of its metadata. -/
def event? (layer : Layer) (clock : Float) (traced : TraceEvent) : Option Event :=
  if traced.target = diagnosticsTarget then none
  else
    let event := (Event.new clock "").withLevel (Severity.ofTrace traced.level).number
    let event := { event with fields := FieldMap.ofList (layer.metadata traced) }
    let event := traced.fields.foldl record event
    some <|
      if Text.blank event.shortMessage then { event with shortMessage := traced.name } else event

end Layer

end Gelf.Trace
