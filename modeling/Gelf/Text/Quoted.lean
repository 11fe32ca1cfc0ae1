import Gelf.Text.Hidden
import Gelf.Text.Utf8

/-!
# Quoted text

Text between quotes as reports show it: quotes and backslashes are escaped, and a character without
a glyph of its own is given by its code point. Octets that are no UTF-8 are given one by one.
-/

namespace Gelf.Text

/-- A character inside quotes. The single quote needs no escape there. -/
def quotedChar (c : Char) : List Char :=
  if c = '\x00' then ['\\', '0']
  else if c = '\t' then ['\\', 't']
  else if c = '\r' then ['\\', 'r']
  else if c = '\n' then ['\\', 'n']
  else if c = '\\' ∨ c = '"' then ['\\', c]
  else if isHidden c then
    '\\' :: 'u' :: '{' :: (Nat.toDigits 16 c.toNat ++ ['}'])
  else [c]

def quoted (s : String) : String :=
  String.ofList ('"' :: (s.toList.flatMap quotedChar ++ ['"']))

/-- The octets of the first character of a UTF-8 text, when it begins with one. -/
def leadingChar? (bytes : List UInt8) : Option (Char × Nat) :=
  [1, 2, 3, 4].findSome? fun n =>
    (ofUtf8? (bytes.take n)).bind fun s =>
      match s.toList with
      | [c] => some (c, n)
      | _ => none

/-- Octets between double quotes. `skip` of them belong to a character that was written already. -/
def quotedBytesFrom (skip : Nat) : List UInt8 → List Char
  | [] => ['"']
  | b :: rest =>
    match skip with
    | n + 1 => quotedBytesFrom n rest
    | 0 => match leadingChar? (b :: rest) with
      | some (c, n) => quotedChar c ++ quotedBytesFrom (n - 1) rest
      | none =>
        let digit (n : Nat) := (Nat.digitChar n).toUpper
        '\\' :: 'x' :: digit (b.toNat / 16) :: digit (b.toNat % 16) :: quotedBytesFrom 0 rest

/-- Octets between double quotes, as text where they are UTF-8. -/
def quotedBytes (bytes : List UInt8) : String :=
  String.ofList ('"' :: quotedBytesFrom 0 bytes)

end Gelf.Text
