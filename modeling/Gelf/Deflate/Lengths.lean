/-!
# Code lengths

The lengths of the best prefix code for given frequencies, when no code may be longer than a limit.
Packages of symbols are paired and merged with the single symbols once for each length. A symbol's
code is as long as the number of cheap packages that contain it.
-/

namespace Gelf.Deflate

/-- How often each number below `size` occurs in a list. -/
def tally (size : Nat) (symbols : List Nat) : List Nat :=
  (symbols.foldl (fun counts symbol => counts.modify symbol (· + 1))
    (Array.replicate size 0)).toList

/-- Symbols taken together, and how often they occur. -/
structure Package where
  weight : Nat
  symbols : List Nat

namespace Package

/-- The symbols that occur, each for itself, the rarest first. -/
def singles (frequencies : List Nat) : List Package :=
  (frequencies.zipIdx.filterMap fun (weight, symbol) =>
    if weight = 0 then none else some { weight, symbols := [symbol] : Package }).mergeSort
      fun a b => a.weight ≤ b.weight

/-- Joins neighbours of a list. One left over is dropped. -/
def pairs : List Package → List Package
  | a :: b :: rest =>
    { weight := a.weight + b.weight, symbols := a.symbols ++ b.symbols } :: pairs rest
  | _ => []

/-- The packages when symbols were taken together so many times. -/
def level (singles : List Package) : Nat → List Package
  | 0 => []
  | n + 1 => List.merge singles (pairs (level singles n)) fun a b => a.weight ≤ b.weight

end Package

/-- The code length of each symbol. A symbol that never occurs has none, and a symbol that is alone
has a code of one bit. -/
def codeLengths (limit : Nat) (frequencies : List Nat) : List Nat :=
  let singles := Package.singles frequencies
  -- A full binary tree over `n` symbols has `2 * n - 2` edges.
  let cheap := if singles.length = 1 then singles
    else (Package.level singles limit).take (2 * singles.length - 2)
  tally frequencies.length (cheap.flatMap Package.symbols)

end Gelf.Deflate
