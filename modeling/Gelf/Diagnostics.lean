import Gelf.Fault
import Gelf.Json.Printer
import Gelf.Severity

/-!
# Diagnostics

Where the faults go that a shipper keeps from its callers: to a function, to a line of JSON text, or
to a traced event.
-/

namespace Gelf

inductive Sink
  | closure
  | stderr
  | tracing
  deriving DecidableEq, Repr

/-- The target of reports. Events with this target are not shipped, so that no shipper is fed its
own faults. -/
def diagnosticsTarget : String := "gelf_handler::diagnostics"

def droppedMessage : String := "dropped GELF message"

inductive Report
  | fault (fault : Fault)
  | line (text : String)
  | event (level : TraceLevel) (target message kind error : String)
  deriving DecidableEq, Repr

namespace Report

open Json (Value)

def timeValue (x : Float) : Value :=
  match FiniteFloat.ofFloat? x with
  | some x => .number (.real x)
  | none => .null

/-- A fault as an object, stamped by the clock. -/
def lineValue (clock : Float) (fault : Fault) : Value :=
  .ofFields (FieldMap.ofList
    [("timestamp", timeValue clock), ("level", .string "warn"),
      ("target", .string diagnosticsTarget), ("message", .string droppedMessage),
      ("kind", .string fault.kind), ("error", .string fault.chain)])

def ofFault (sink : Sink) (clock : Float) (fault : Fault) : Report :=
  match sink with
  | .closure => .fault fault
  | .stderr => .line ((lineValue clock fault).text ++ "\n")
  | .tracing => .event .warn diagnosticsTarget droppedMessage fault.kind fault.chain

end Report

end Gelf
