/-!
# Faults

What can go wrong between an event and the network. A fault of the outside world is an `IoError`:
its kind, its text, and the texts of what caused it in turn.
-/

namespace Gelf

inductive IoKind
  | invalidData
  | invalidInput
  | unexpectedEof
  | wouldBlock
  | outOfMemory
  | notFound
  | writeZero
  | networkUnreachable
  | uncategorized
  | other
  deriving DecidableEq, Repr

structure IoError where
  kind : IoKind
  text : String
  causes : List String := []
  deriving DecidableEq, Repr

/-- Messages of more chunks than this are not put together again by receivers. -/
def maxChunks : Nat := 128

/-- Why an event was not shipped. -/
inductive Fault
  /-- The event is no message. -/
  | validation (reason : String)
  /-- The payload needs more chunks than receivers put together. -/
  | messageTooLarge (size chunks : Nat)
  /-- The message could not be written or read. -/
  | encoding (error : IoError)
  /-- A datagram could not be handed over. -/
  | transport (error : IoError)
  deriving DecidableEq, Repr

namespace Fault

def kind : Fault → String
  | .validation _ => "validation"
  | .messageTooLarge _ _ => "message_too_large"
  | .encoding _ => "encoding"
  | .transport _ => "transport"

def message : Fault → String
  | .validation reason => "invalid log event: " ++ reason
  | .messageTooLarge size chunks =>
    "message of " ++ toString size ++ " bytes needs " ++ toString chunks ++ " chunks, limit is " ++
      toString maxChunks
  | .encoding _ => "failed to encode message"
  | .transport _ => "failed to send datagram"

def ioError? : Fault → Option IoError
  | .encoding error | .transport error => some error
  | _ => none

def causes (fault : Fault) : List String :=
  match fault.ioError? with
  | some error => error.text :: error.causes
  | none => []

/-- The message of a fault and then its causes, each behind a colon. -/
def chain (fault : Fault) : String :=
  fault.causes.foldl (fun text cause => text ++ ": " ++ cause) fault.message

theorem chain_eq_intercalate (fault : Fault) :
    fault.chain = ": ".intercalate (fault.message :: fault.causes) := by
  rw [chain]
  generalize fault.message = text
  induction fault.causes generalizing text with
  | nil => rfl
  | cons cause causes ih => exact ih (text ++ ": " ++ cause)

end Fault

end Gelf
