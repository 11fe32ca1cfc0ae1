import Gelf.Address
import Gelf.Chunk.Basic
import Gelf.Fault

/-!
# The network

What the world outside does with names, sockets and datagrams. Nothing is assumed about it: a send
may be written in part or fail at any time. Each send is recorded, so that what was offered and what
was delivered can be told afterwards.
-/

namespace Gelf.Delivery

inductive Outcome
  | written (n : Nat)
  | failed (error : IoError)
  deriving DecidableEq

structure Network where
  lookup : String → Except IoError (List Address)
  /-- Why no socket can be set up for an address, if it cannot. -/
  socketError : Address → Option IoError
  /-- What becomes of a datagram, given how many were offered before it. -/
  outcome : Nat → Endpoint → Datagram → Outcome

structure Attempt where
  target : Endpoint
  datagram : Datagram
  outcome : Outcome
  deriving DecidableEq

/-- Whether the datagram was written in full. -/
def Attempt.isDelivered (a : Attempt) : Bool := a.outcome = .written a.datagram.length

/-- All datagrams given to sockets so far, the first one first. -/
abbrev Wire := List Attempt

namespace Wire

def delivered (wire : Wire) : List Datagram :=
  (wire.filter Attempt.isDelivered).map Attempt.datagram

def offer (wire : Wire) (net : Network) (target : Endpoint) (datagram : Datagram) : Attempt :=
  { target, datagram, outcome := net.outcome wire.length target datagram }

theorem delivered_append (wire wire' : Wire) :
    delivered (wire ++ wire') = delivered wire ++ delivered wire' := by
  simp [delivered]

end Wire

/-- Names with this character are never looked up. -/
def nulError : IoError where
  kind := .invalidInput
  text := "file name contained an unexpected NUL byte"

structure Target where
  host : String
  port : UInt16
  deriving DecidableEq

namespace Target

def text (target : Target) : String :=
  if target.host.toList.contains ':' then "[" ++ target.host ++ "]:" ++ toString target.port.toNat
  else target.host ++ ":" ++ toString target.port.toNat

/-- All addresses of a target: itself, if it is a literal, and otherwise those of its name. -/
def addresses (net : Network) (target : Target) : Except IoError (List Address) :=
  match Address.parse? target.host with
  | some address => .ok [address]
  | none =>
    if target.host.toList.contains '\x00' then .error nulError else net.lookup target.host

def resolve (net : Network) (target : Target) : Except IoError Endpoint :=
  match target.addresses net with
  | .error e => .error e
  | .ok (address :: _) => .ok ⟨address, target.port⟩
  | .ok [] => .error
    { kind := .notFound, text := target.text ++ " did not resolve to any address" }

end Target

end Gelf.Delivery
