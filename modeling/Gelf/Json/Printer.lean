import Gelf.Decimal.Notation
import Gelf.Json.Value

/-!
# Compact JSON text

Values without any space between their parts. Strings escape the quote, the backslash and control
characters only, so a text never holds a line break. Floats always show that they are floats, by a
point or by an exponent.
-/

namespace Gelf.Json

/-- Floats of JSON text. They are positional from `0.00001` below `1e+16`, a whole one ends in `.0`,
and a tie goes to the even digit. -/
def numerals : Decimal.Numerals where
  positional point := -5 < point && point ≤ 16
  whole := ['.', '0']
  tie := .even

/-- A control character in four hexadecimal digits. -/
def controlChars (c : Char) : List Char :=
  ['\\', 'u', '0', '0', Nat.digitChar (c.toNat / 16), Nat.digitChar (c.toNat % 16)]

def escapeChar (c : Char) : List Char :=
  if c = '"' then ['\\', '"']
  else if c = '\\' then ['\\', '\\']
  else if 0x20 ≤ c.toNat then [c]
  else if c.toNat = 0x08 then ['\\', 'b']
  else if c.toNat = 0x0c then ['\\', 'f']
  else if c = '\n' then ['\\', 'n']
  else if c = '\r' then ['\\', 'r']
  else if c = '\t' then ['\\', 't']
  else controlChars c

def stringChars (s : String) : List Char :=
  '"' :: (s.toList.flatMap escapeChar ++ ['"'])

def integerChars (n : Int) : List Char :=
  if n < 0 then '-' :: Nat.toDigits 10 n.natAbs else Nat.toDigits 10 n.natAbs

def Number.chars : Number → List Char
  | .integer n => integerChars n.val
  | .real x => Decimal.floatChars numerals x.val

def boolText (b : Bool) : String := if b then "true" else "false"

namespace Value

mutual

def chars : Value → List Char
  | .null => ['n', 'u', 'l', 'l']
  | .bool b => (boolText b).toList
  | .number n => n.chars
  | .string s => stringChars s
  | .array [] => ['[', ']']
  | .array (v :: vs) => '[' :: (v.chars ++ itemsTail vs)
  | .object [] => ['{', '}']
  | .object ((k, v) :: ms) => '{' :: (stringChars k ++ ':' :: (v.chars ++ membersTail ms))

def itemsTail : List Value → List Char
  | [] => [']']
  | v :: vs => ',' :: (v.chars ++ itemsTail vs)

def membersTail : List (String × Value) → List Char
  | [] => ['}']
  | (k, v) :: ms => ',' :: (stringChars k ++ ':' :: (v.chars ++ membersTail ms))

end

def text (v : Value) : String := String.ofList v.chars

end Value

end Gelf.Json
