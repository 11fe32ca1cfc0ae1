/-!
# Shortest decimals

The shortest decimal that rounds to a given float. A positive float is `mantissa * 2 ^ exponent`,
and the reals that round to it form an interval around it. Grids of decimals are tried from coarse
to fine. On each grid only the two neighbours of the float can lie in the interval, so the first
grid with a neighbour inside gives the fewest digits, and the nearer neighbour the best ones.
-/

namespace Gelf

structure Decimal where
  coefficient : Nat
  exponent : Int
  deriving DecidableEq, Repr

namespace Decimal

inductive Tie
  | even
  | up
  deriving DecidableEq, Repr

/-- The reals that round to a float: from `lower` to `upper` around `centre`, in units of
`2 ^ exponent`. The ends belong to it when `closed`. -/
structure Interval where
  lower : Nat
  centre : Nat
  upper : Nat
  exponent : Int
  closed : Bool
  deriving DecidableEq, Repr

/-- The interval of a float without its sign. The step below a power of two is half the step above
it, and an even mantissa takes both ends. -/
def Interval.ofFloat (x : Float) : Interval :=
  let bits : Nat := x.toBits.toNat
  let fraction : Nat := bits % 0x10000000000000
  let biased : Nat := bits / 0x10000000000000 % 0x800
  let mantissa : Nat := if biased = 0 then fraction else fraction + 0x10000000000000
  let exponent : Int := if biased = 0 then -1074 else (biased : Int) - 1075
  -- The unit is a quarter of the step, which makes both ends whole numbers.
  let lower := if fraction = 0 ∧ 1 < biased then 4 * mantissa - 1 else 4 * mantissa - 2
  { lower, centre := 4 * mantissa, upper := 4 * mantissa + 2
    exponent := exponent - 2, closed := decide (mantissa % 2 = 0) }

/-- The multiple of `10 ^ grid` that lies in the interval and is nearest to its centre. -/
def Interval.onGrid? (i : Interval) (tie : Tie) (grid : Int) : Option Nat :=
  let unit := Nat.pow 10 grid.toNat * Nat.pow 2 (-i.exponent).toNat
  let scale := Nat.pow 2 i.exponent.toNat * Nat.pow 10 (-grid).toNat
  let centre := i.centre * scale
  let below := centre / unit
  let inside (k : Nat) : Bool :=
    if i.closed then i.lower * scale ≤ k * unit && k * unit ≤ i.upper * scale
    else i.lower * scale < k * unit && k * unit < i.upper * scale
  if inside below then
    if inside (below + 1) then
      let past := 2 * (centre - below * unit)
      if past < unit then some below
      else if unit < past then some (below + 1)
      else match tie with
        | .even => some (below + below % 2)
        | .up => some (below + 1)
    else some below
  else if inside (below + 1) then some (below + 1)
  else none

/-- The first hit among the `steps` grids from `grid` downwards. After them comes the exact value
of the centre, which is a decimal of many digits. -/
def Interval.shortest (i : Interval) (tie : Tie) : Nat → Int → Decimal
  | 0, _ =>
    { coefficient := i.centre * Nat.pow 2 i.exponent.toNat * Nat.pow 5 (-i.exponent).toNat
      exponent := if i.exponent < 0 then i.exponent else 0 }
  | steps + 1, grid =>
    match i.onGrid? tie grid with
    | some coefficient => { coefficient, exponent := grid }
    | none => i.shortest tie steps (grid - 1)

/-- The shortest decimal that rounds to the float without its sign. The first grid is coarser than
the float is large, and 40 grids reach past 17 digits of the smallest float. -/
def ofFloat (tie : Tie) (x : Float) : Decimal :=
  let i := Interval.ofFloat x
  if i.centre = 0 then ⟨0, 0⟩
  else i.shortest tie 40 ((i.exponent + 55) * 30103 / 100000 + 2)

def digits (d : Decimal) : List Char := Nat.toDigits 10 d.coefficient

/-- How many digits stand before the point in positional notation, when this is positive. -/
def point (d : Decimal) : Int := d.digits.length + d.exponent

end Decimal

end Gelf
