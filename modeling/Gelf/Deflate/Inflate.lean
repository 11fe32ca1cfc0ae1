import Gelf.Deflate.Codes
import Gelf.Deflate.Tables

/-!
# Inflating

Reads the deflate format. Every step of a block takes at least one bit, so the number of bits bounds
the number of steps.
-/

namespace Gelf.Deflate

/-- Appends `n` octets, each from `distance` octets back. -/
def copyBack (distance : Nat) : Nat → Array UInt8 → Array UInt8
  | 0, out => out
  | n + 1, out => copyBack distance n (out.push (out.getD (out.size - distance) 0))

namespace Reader

/-- A value that a table gives by a symbol and extra bits. -/
def tableValue (table : Array (Nat × Nat)) (symbol : Nat) : Reader Nat := do
  let entry ← table[symbol]?
  let n ← number entry.2
  return entry.1 + n

/-- Reads the symbols of a block, and puts what they stand for behind `out`. -/
def symbols (literals distances : Code) : Nat → Array UInt8 → Reader (Array UInt8)
  | 0, _ => failure
  | steps + 1, out => do
    let symbol ← literals.symbol
    if symbol < 256 then symbols literals distances steps (out.push (.ofNat symbol))
    else if symbol = 256 then return out
    else
      let length ← tableValue lengthTable (symbol - 257)
      let symbol ← distances.symbol
      let distance ← tableValue distanceTable symbol
      if distance ≤ out.size then symbols literals distances steps (copyBack distance length out)
      else failure

/-- The code lengths in front of a block, themselves in a code. The lengths so far are kept in
reverse. -/
def lengths (code : Code) (wanted : Nat) : Nat → List Nat → Reader (List Nat)
  | 0, _ => failure
  | steps + 1, taken =>
    if wanted ≤ taken.length then
      if wanted = taken.length then return taken.reverse else failure
    else do
      let symbol ← code.symbol
      if symbol < 16 then lengths code wanted steps (symbol :: taken)
      else if symbol = 16 then
        let length ← taken.head?
        let n ← number 2
        lengths code wanted steps (List.replicate (3 + n) length ++ taken)
      else if symbol = 17 then
        let n ← number 3
        lengths code wanted steps (List.replicate (3 + n) 0 ++ taken)
      else
        let n ← number 7
        lengths code wanted steps (List.replicate (11 + n) 0 ++ taken)

/-- The lengths of the code of code lengths. Places that are not sent keep what they have. -/
def ordered : List Nat → Nat → List Nat → Reader (List Nat)
  | place :: places, n + 1, lengths => do
    let length ← number 3
    ordered places n (lengths.set place length)
  | _, _, lengths => return lengths

/-- The codes of a block: that of literals and lengths, and that of distances. -/
def codes : Reader (Code × Code) := do
  let literals ← number 5
  let distances ← number 5
  let sent ← number 4
  let code ← ordered codeLengthOrder (sent + 4) (List.replicate 19 0)
  let wanted := literals + 257 + (distances + 1)
  let all ← lengths (.ofLengths code) wanted (wanted + 1) []
  return (.ofLengths (all.take (literals + 257)), .ofLengths (all.drop (literals + 257)))

/-- Octets that are sent as they are, behind their number and its complement. -/
def plain (out : Array UInt8) : Reader (Array UInt8) := fun s =>
  match s.rest with
  | a :: b :: c :: d :: rest =>
    let length := a.toNat + 256 * b.toNat
    if c = ~~~a ∧ d = ~~~b ∧ length ≤ rest.length then
      some (out ++ rest.take length, .ofOctets (rest.drop length))
    else none
  | _ => none

def block (steps kind : Nat) (out : Array UInt8) : Reader (Array UInt8) :=
  match kind with
  | 0 => plain out
  | 1 => symbols (.ofLengths fixedLiteralLengths) (.ofLengths fixedDistanceLengths) steps out
  | 2 => do
    let (literals, distances) ← codes
    symbols literals distances steps out
  | _ => failure

def blocks : Nat → Array UInt8 → Reader (Array UInt8)
  | 0, _ => failure
  | steps + 1, out => do
    let isLast ← bit
    let kind ← number 2
    let out ← block (steps + 1) kind out
    if isLast then return out else blocks steps out

end Reader

/-- The data at the front of `bytes`, and the octets behind it. -/
def inflate (bytes : List UInt8) : Option (List UInt8 × List UInt8) :=
  (Reader.blocks (8 * bytes.length + 1) #[] (.ofOctets bytes)).map fun (out, s) =>
    (out.toList, s.rest)

end Gelf.Deflate
