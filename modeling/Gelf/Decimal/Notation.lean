import Gelf.Decimal.Shortest

/-!
# Decimal notation

How a float is written. A `Numerals` record holds the decisions of one format: where positional
notation is used, what follows a whole number, and how a tie between two shortest decimals goes.
-/

namespace Gelf.Decimal

/-- The decisions of a format of floats. -/
structure Numerals where
  /-- Whether a decimal with this point is written without an exponent. -/
  positional : Int → Bool
  /-- What follows a number without a fraction in positional notation. -/
  whole : List Char
  tie : Tie

/-- Digits with a point at the right place, and with zeros where digits are missing. -/
def positionalChars (whole : List Char) (d : Decimal) : List Char :=
  let ds := d.digits
  if d.point ≤ 0 then '0' :: '.' :: (List.replicate (-d.point).toNat '0' ++ ds)
  else
    let n := d.point.toNat
    if n < ds.length then ds.take n ++ '.' :: ds.drop n
    else ds ++ List.replicate (n - ds.length) '0' ++ whole

/-- One digit, the other digits after a point, and an exponent with its sign. -/
def exponentChars (d : Decimal) : List Char :=
  let e := d.point - 1
  let mantissa := match d.digits with
    | [] => []
    | [c] => [c]
    | c :: cs => c :: '.' :: cs
  mantissa ++ 'e' :: (if e < 0 then '-' else '+') :: Nat.toDigits 10 e.natAbs

def chars (f : Numerals) (d : Decimal) : List Char :=
  if f.positional d.point then d.positionalChars f.whole else d.exponentChars

def signChars (x : Float) : List Char :=
  if x.toBits &&& 0x8000000000000000 = 0 then [] else ['-']

def floatChars (f : Numerals) (x : Float) : List Char :=
  signChars x ++ (ofFloat f.tie x).chars f

/-- Plain text: always positional, and a whole number has no point. -/
def plain : Numerals where
  positional _ := true
  whole := []
  tie := .up

def plainText (x : Float) : String :=
  if x.isNaN then "NaN"
  else if x.isInf then (if x < 0 then "-inf" else "inf")
  else String.ofList (floatChars plain x)

end Gelf.Decimal
