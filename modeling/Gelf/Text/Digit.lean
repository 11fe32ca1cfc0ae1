/-!
# Digits

The values of decimal and hexadecimal digits. Only ASCII digits are digits.
-/

namespace Gelf.Text

def digitValue (c : Char) : Nat := c.toNat - '0'.toNat

/-- Letters count in either case. -/
def hexDigit? (c : Char) : Option Nat :=
  if c.isDigit then some (digitValue c)
  else if 'a' ≤ c ∧ c ≤ 'f' then some (c.toNat - 'a'.toNat + 10)
  else if 'A' ≤ c ∧ c ≤ 'F' then some (c.toNat - 'A'.toNat + 10)
  else none

def digitsValue (cs : List Char) : Nat := cs.foldl (fun n c => 10 * n + digitValue c) 0

end Gelf.Text
