import Gelf.Deflate.Inflate
import Gelf.Deflate.Lengths
import Gelf.Deflate.Repetition

/-!
# Deflating

Writes the deflate format. The data is described by pieces, and the pieces are sent in the fixed
code or in a code of their own, whichever is shorter. Where plain data is not longer, it is sent as
it is.
-/

namespace Gelf.Deflate

/-! ### Pieces in codes -/

/-- The extra bits of a value, behind its symbol in a table. -/
def extraBits (table : Array (Nat × Nat)) (n : Nat) : List Bool :=
  let entry := table.getD (symbolOf table n) (0, 0)
  numberBits entry.2 (n - entry.1)

namespace Piece

/-- The symbol among literals and lengths. -/
def symbol : Piece → Nat
  | .literal b => b.toNat
  | .copy length _ => 257 + symbolOf lengthTable length

/-- The symbol among distances, if the piece is a repetition. -/
def distanceSymbol? : Piece → Option Nat
  | .literal _ => none
  | .copy _ distance => some (symbolOf distanceTable distance)

def bits (literals distances : Array (List Bool)) (piece : Piece) : List Bool :=
  literals.getD piece.symbol [] ++
    match piece with
    | .literal _ => []
    | .copy length distance =>
      extraBits lengthTable length ++ (distances.getD (symbolOf distanceTable distance) [] ++
        extraBits distanceTable distance)

end Piece

/-- Pieces and the end of their block. -/
def bodyBits (literals distances : List Nat) (pieces : List Piece) : List Bool :=
  let literals := codesOf literals
  let distances := codesOf distances
  pieces.flatMap (Piece.bits literals distances) ++ literals.getD 256 []

def fixedBlock (pieces : List Piece) : List Bool :=
  true :: (numberBits 2 1 ++ bodyBits fixedLiteralLengths fixedDistanceLengths pieces)

/-! ### Code lengths in a code -/

/-- Code lengths as they are sent: one of them, the one before a few more times, or zeros. -/
inductive LengthPiece
  | one (length : Nat)
  | again (n : Nat)
  | zeros (n : Nat)

namespace LengthPiece

def symbol : LengthPiece → Nat
  | .one length => length
  | .again _ => 16
  | .zeros n => if n < 11 then 17 else 18

def extraBits : LengthPiece → List Bool
  | .one _ => []
  | .again n => numberBits 2 (n - 3)
  | .zeros n => if n < 11 then numberBits 3 (n - 3) else numberBits 7 (n - 11)

def bits (codes : Array (List Bool)) (piece : LengthPiece) : List Bool :=
  codes.getD piece.symbol [] ++ piece.extraBits

/-- How many lengths one piece can repeat. -/
def most (length : Nat) : Nat := if length = 0 then 138 else 6

/-- The same length `k` more times. Fewer than three times are sent one by one. -/
def repeated (length k : Nat) : List LengthPiece :=
  if k < 3 then List.replicate k (.one length)
  else
    let n := min k (most length)
    (if length = 0 then .zeros n else .again n) :: repeated length (k - n)
termination_by k
decreasing_by simp only [most]; split <;> omega

/-- A length that stands `k` times in a row. -/
def ofRun (length k : Nat) : List LengthPiece :=
  if length = 0 then repeated 0 k else .one length :: repeated length (k - 1)

end LengthPiece

/-- Numbers and how often each stands in a row. -/
def runs : List Nat → List (Nat × Nat)
  | [] => []
  | n :: ns =>
    match runs ns with
    | (m, k) :: rest => if n = m then (m, k + 1) :: rest else (n, 1) :: (m, k) :: rest
    | [] => [(n, 1)]

/-- Code lengths as pieces. -/
def lengthPieces (lengths : List Nat) : List LengthPiece :=
  (runs lengths).flatMap fun run => LengthPiece.ofRun run.1 run.2

/-- The code lengths of a block without the zeros at the end, but at least `least` of them. -/
def trimLengths (least : Nat) (lengths : List Nat) : List Nat :=
  lengths.take (max least (lengths.reverse.dropWhile (· = 0)).length)

/-- The codes of a block, in front of it. -/
def headerBits (literals distances : List Nat) : List Bool :=
  let pieces := lengthPieces (literals ++ distances)
  let lengths := codeLengths 7 (tally 19 (pieces.map LengthPiece.symbol))
  let sent := trimLengths 4 (codeLengthOrder.map fun place => lengths.getD place 0)
  numberBits 5 (literals.length - 257) ++ (numberBits 5 (distances.length - 1) ++
    (numberBits 4 (sent.length - 4) ++ (sent.flatMap (numberBits 3) ++
      pieces.flatMap (LengthPiece.bits (codesOf lengths)))))

/-- The code lengths of literals and lengths for pieces. The end of the block occurs once. -/
def literalLengths (pieces : List Piece) : List Nat :=
  trimLengths 257 (codeLengths 15 (tally 286 (256 :: pieces.map Piece.symbol)))

def distanceLengths (pieces : List Piece) : List Nat :=
  trimLengths 1 (codeLengths 15 (tally 30 (pieces.filterMap Piece.distanceSymbol?)))

def ownBlock (pieces : List Piece) : List Bool :=
  let literals := literalLengths pieces
  let distances := distanceLengths pieces
  true :: (numberBits 2 2 ++ (headerBits literals distances ++
    bodyBits literals distances pieces))

/-- A block in whichever code is shorter. -/
def codedBlock (pieces : List Piece) : List Bool :=
  let fixed := fixedBlock pieces
  let own := ownBlock pieces
  if own.length < fixed.length then own else fixed

/-! ### Plain octets -/

/-- The most octets that one block sends as they are. -/
def maxStored : Nat := 65535

/-- A block of octets as they are: whether it is the last, their number, and its complement. -/
def storedBlock (isLast : Bool) (bytes : List UInt8) : List UInt8 :=
  let low := UInt8.ofNat (bytes.length % 256)
  let high := UInt8.ofNat (bytes.length / 256)
  (if isLast then 1 else 0) :: low :: high :: ~~~low :: ~~~high :: bytes

def stored (bytes : List UInt8) : List UInt8 :=
  if bytes.length ≤ maxStored then storedBlock true bytes
  else storedBlock false (bytes.take maxStored) ++ stored (bytes.drop maxStored)
termination_by bytes.length
decreasing_by simp only [List.length_drop, maxStored] at *; omega

def deflate (data : List UInt8) : List UInt8 :=
  let coded := codedBlock (pieces data.toArray)
  -- A stored block has five octets beside its data.
  if coded.length < 8 * (data.length + 5) then (pack #[] coded).toList else stored data

end Gelf.Deflate
