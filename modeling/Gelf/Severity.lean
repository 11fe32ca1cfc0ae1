/-!
# Severities

The eight severities of syslog, from 0 for an emergency to 7 for debugging.
-/

namespace Gelf

inductive Severity
  | emergency
  | alert
  | critical
  | error
  | warning
  | notice
  | informational
  | debug
  deriving DecidableEq, Repr

inductive TraceLevel
  | error
  | warn
  | info
  | debug
  | trace
  deriving DecidableEq, Repr

namespace Severity

def number : Severity → Nat
  | .emergency => 0
  | .alert => 1
  | .critical => 2
  | .error => 3
  | .warning => 4
  | .notice => 5
  | .informational => 6
  | .debug => 7

/-- The severity with the nearest number. -/
def ofInt (n : Int) : Severity :=
  if n ≤ 0 then .emergency
  else if n = 1 then .alert
  else if n = 2 then .critical
  else if n = 3 then .error
  else if n = 4 then .warning
  else if n = 5 then .notice
  else if n = 6 then .informational
  else .debug

/-- Clamping a number to the range of severities and taking the nearest severity is the same. -/
theorem number_ofInt (n : Int) : ((ofInt n).number : Int) = max 0 (min n 7) := by
  unfold ofInt
  repeat' split
  all_goals simp only [number]; omega

theorem ofInt_number (s : Severity) : ofInt s.number = s := by
  cases s <;> decide

/-- Tracing has no severity below debugging. -/
def ofTrace : TraceLevel → Severity
  | .error => .error
  | .warn => .warning
  | .info => .informational
  | .debug => .debug
  | .trace => .debug

end Severity

end Gelf
