/-!
# Finding repetitions

Describes data by single octets and by repetitions of what came before. Places where the same three
octets stood are remembered by a hash, and the longest repetition among the latest of them is taken.
-/

namespace Gelf.Deflate

inductive Piece
  | literal (b : UInt8)
  | copy (length distance : Nat)
  deriving DecidableEq, Repr

/-- Where octets with a given hash stood last, and where before that. A place is kept plus one, and
zero stands for none. -/
structure Places where
  latest : Array Nat
  earlier : Array Nat

def Places.empty (size : Nat) : Places :=
  { latest := Array.replicate 4096 0, earlier := Array.replicate size 0 }

/-- A number below 4096 for the three octets at a place. -/
def hashAt (data : Array UInt8) (i : Nat) : Nat :=
  let octet (k : Nat) := (data.getD (i + k) 0).toNat
  (octet 0 * 1024 + octet 1 * 31 + octet 2 * 7) % 4096

def Places.add (places : Places) (data : Array UInt8) (i : Nat) : Places :=
  let hash := hashAt data i
  { latest := places.latest.setIfInBounds hash (i + 1)
    earlier := places.earlier.setIfInBounds i (places.latest.getD hash 0) }

def Places.addMany (data : Array UInt8) : Nat → Nat → Places → Places
  | 0, _, places => places
  | n + 1, i, places => addMany data n (i + 1) (places.add data i)

def sameOctets (data : Array UInt8) (i j : Nat) : Nat → Nat → Nat
  | 0, n => n
  | limit + 1, n =>
    if data.getD (i + n) 0 = data.getD (j + n) 0 then sameOctets data i j limit (n + 1) else n

/-- The longest repetition among the places that `place` leads to, as length and distance. -/
def longest (data : Array UInt8) (earlier : Array Nat) (i limit : Nat) :
    Nat → Nat → Nat × Nat → Nat × Nat
  | 0, _, best => best
  | tries + 1, place, best =>
    if place = 0 ∨ i < place ∨ 32768 < i - (place - 1) then best
    else
      let j := place - 1
      let length := sameOctets data i j limit 0
      let best := if best.1 < length then (length, i - j) else best
      if best.1 = limit then best
      else longest data earlier i limit tries (earlier.getD j 0) best

/-- The repetition that is taken at a place. Fewer than three octets are none. -/
def repetitionAt (data : Array UInt8) (places : Places) (i : Nat) : Option (Nat × Nat) :=
  let limit := min 258 (data.size - i)
  let best := longest data places.earlier i limit 64 (places.latest.getD (hashAt data i) 0) (0, 0)
  if best.1 < 3 then none else some best

/-- The pieces of data from a place on, put behind those found so far. -/
def piecesFrom (data : Array UInt8) (i : Nat) (places : Places) (found : Array Piece) :
    Array Piece :=
  if h : i < data.size then
    match repetitionAt data places i with
    | none => piecesFrom data (i + 1) (places.add data i) (found.push (.literal data[i]))
    | some (length, distance) =>
      piecesFrom data (i + 1 + (length - 1)) (Places.addMany data length i places)
        (found.push (.copy length distance))
  else found
termination_by data.size - i

def pieces (data : Array UInt8) : List Piece :=
  (piecesFrom data 0 (.empty data.size) #[]).toList

end Gelf.Deflate
