import Gelf.Text.Digit

/-!
# Reading numbers from text

Integers are an optional sign and decimal digits. Floats also have a fraction, an exponent, and the
names of the values that are not finite, and round to the nearest float.
-/

namespace Gelf.Decimal

open Text (digitValue digitsValue)

inductive IntegerError
  | empty
  | invalidDigit
  | tooLarge
  deriving DecidableEq, Repr

def IntegerError.message : IntegerError → String
  | .empty => "cannot parse integer from empty string"
  | .invalidDigit => "invalid digit found in string"
  | .tooLarge => "number too large to fit in target type"

/-- The digits behind a sign. There is at least one, and nothing else. -/
def unsignedDigits? (cs : List Char) : Option Nat :=
  if cs ≠ [] ∧ cs.all Char.isDigit then some (digitsValue cs) else none

/-- Takes in digits from the left. The first fault decides: a character that is no digit, or a digit
with which the value passes `limit`. -/
def digitsUpTo (limit : Nat) : Nat → List Char → Except IntegerError Nat
  | n, [] => .ok n
  | n, c :: cs =>
    if c.isDigit then
      let n := 10 * n + digitValue c
      if limit < n then .error .tooLarge else digitsUpTo limit n cs
    else .error .invalidDigit

/-- Reads an integer from 0 up to `limit`. A plus sign may stand in front of the digits. -/
def readNat (limit : Nat) (s : String) : Except IntegerError Nat :=
  match s.toList with
  | [] => .error .empty
  | '+' :: c :: cs => digitsUpTo limit 0 (c :: cs)
  | cs => digitsUpTo limit 0 cs

def readInt64? (s : String) : Option Int :=
  let value := match s.toList with
    | '-' :: cs => (unsignedDigits? cs).map fun n => -(n : Int)
    | '+' :: cs => (unsignedDigits? cs).map fun n => (n : Int)
    | cs => (unsignedDigits? cs).map fun n => (n : Int)
  value.filter fun n => -0x8000000000000000 ≤ n ∧ n < 0x8000000000000000

/-- The float nearest to `coefficient * 10 ^ exponent`. Values beyond the range of floats are
settled by their size, before the power is taken. -/
def nearestFloat (coefficient : Nat) (exponent : Int) : Float :=
  let point : Int := (Nat.toDigits 10 coefficient).length + exponent
  if coefficient = 0 ∨ point < -330 then 0
  else if 310 < point then 1 / 0
  else Float.ofScientific coefficient (exponent < 0) exponent.natAbs

/-- The exponent behind the letter: an optional sign and at least one digit. -/
def exponent? (cs : List Char) : Option Int :=
  match cs with
  | '-' :: cs => (unsignedDigits? cs).map fun n => -(n : Int)
  | '+' :: cs => (unsignedDigits? cs).map fun n => (n : Int)
  | cs => (unsignedDigits? cs).map fun n => (n : Int)

/-- A number without a sign: digits around an optional point, at least one of them, and an optional
exponent. -/
def unsignedFloat? (cs : List Char) : Option Float :=
  let whole := cs.takeWhile Char.isDigit
  let rest := cs.dropWhile Char.isDigit
  let (fraction, rest) := match rest with
    | '.' :: rest => (rest.takeWhile Char.isDigit, rest.dropWhile Char.isDigit)
    | rest => ([], rest)
  if whole = [] ∧ fraction = [] then none
  else
    let value (e : Int) := nearestFloat (digitsValue (whole ++ fraction)) (e - fraction.length)
    match rest with
    | [] => some (value 0)
    | c :: cs => if c = 'e' ∨ c = 'E' then (exponent? cs).map value else none

/-- The values that are not numbers, by their names in any case. -/
def namedFloat? (cs : List Char) : Option Float :=
  let name := String.ofList (cs.map Char.toLower)
  if name = "inf" ∨ name = "infinity" then some (1 / 0)
  else if name = "nan" then some (0 / 0)
  else none

def readFloat? (s : String) : Option Float :=
  let magnitude? (cs : List Char) := (namedFloat? cs).or (unsignedFloat? cs)
  match s.toList with
  | '-' :: cs => (magnitude? cs).map fun x => -x
  | '+' :: cs => magnitude? cs
  | cs => magnitude? cs

end Gelf.Decimal
