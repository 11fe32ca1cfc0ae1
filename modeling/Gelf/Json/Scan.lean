import Gelf.Json.ReadError
import Gelf.Text.Digit
import Gelf.Text.Utf8

/-!
# Scanning the leaves of JSON text

Literals, strings and numbers, taken off the front of a list of octets. Each scan gives what is left
of the octets, which is never more than there was.
-/

namespace Gelf.Json

abbrev octet (c : Char) : UInt8 := c.toUInt8

def isSpace (b : UInt8) : Bool :=
  b = octet ' ' || b = octet '\n' || b = octet '\t' || b = octet '\r'

def skipSpace (s : List UInt8) : List UInt8 := s.dropWhile isSpace

theorem length_dropWhile_le {α : Type} (p : α → Bool) (s : List α) :
    (s.dropWhile p).length ≤ s.length :=
  (List.dropWhile_sublist p).length_le

theorem length_skipSpace_le (s : List UInt8) : (skipSpace s).length ≤ s.length :=
  length_dropWhile_le isSpace s

def literal : List Char → List UInt8 → Except ReadError (List UInt8)
  | [], s => .ok s
  | _ :: _, [] => .error .endInValue
  | c :: cs, b :: s => if b = octet c then literal cs s else .error .expectedLiteral

theorem literal_length_le {cs : List Char} {s r : List UInt8} (h : literal cs s = .ok r) :
    r.length ≤ s.length := by
  induction cs generalizing s with
  | nil => cases h; exact Nat.le_refl _
  | cons c cs ih =>
    cases s with
    | nil => cases h
    | cons b s =>
      simp only [literal] at h
      split at h
      · exact Nat.le_succ_of_le (ih h)
      · cases h

/-! ### Strings -/

def hexDigit? (b : UInt8) : Option Nat := Text.hexDigit? (Char.ofUInt8 b)

def hexUnit : List UInt8 → Except ReadError (Nat × List UInt8)
  | a :: b :: c :: d :: r =>
    match hexDigit? a, hexDigit? b, hexDigit? c, hexDigit? d with
    | some a, some b, some c, some d => .ok (((a * 16 + b) * 16 + c) * 16 + d, r)
    | _, _, _, _ => .error .invalidEscape
  | _ => .error .endInString

/-- The second half of a pair of surrogates, behind its own backslash. -/
def lowSurrogate (high : Nat) (s : List UInt8) : Except ReadError (Char × List UInt8) :=
  match s with
  | [] => .error .endInString
  | b :: s =>
    if b ≠ octet '\\' then .error .unfinishedSurrogates
    else match s with
      | [] => .error .endInString
      | b :: s =>
        if b ≠ octet 'u' then .error .unfinishedSurrogates
        else match hexUnit s with
          | .error e => .error e
          | .ok (low, r) =>
            if 0xdc00 ≤ low ∧ low ≤ 0xdfff then
              .ok (Char.ofNat ((high - 0xd800) * 0x400 + (low - 0xdc00) + 0x10000), r)
            else .error .loneSurrogate

/-- The character of an escape with four digits. Characters beyond U+FFFF take two of them. -/
def unicodeEscape (s : List UInt8) : Except ReadError (Char × List UInt8) :=
  match hexUnit s with
  | .error e => .error e
  | .ok (unit, r) =>
    if 0xdc00 ≤ unit ∧ unit ≤ 0xdfff then .error .loneSurrogate
    else if 0xd800 ≤ unit ∧ unit ≤ 0xdbff then lowSurrogate unit r
    else .ok (Char.ofNat unit, r)

/-- The character that an escape stands for. The backslash is already taken. -/
def escape : List UInt8 → Except ReadError (Char × List UInt8)
  | [] => .error .endInString
  | b :: s =>
    if b = octet '"' then .ok ('"', s)
    else if b = octet '\\' then .ok ('\\', s)
    else if b = octet '/' then .ok ('/', s)
    else if b = octet 'b' then .ok ('\x08', s)
    else if b = octet 'f' then .ok ('\x0c', s)
    else if b = octet 'n' then .ok ('\n', s)
    else if b = octet 'r' then .ok ('\r', s)
    else if b = octet 't' then .ok ('\t', s)
    else if b = octet 'u' then unicodeEscape s
    else .error .invalidEscape

theorem hexUnit_length_le {s r : List UInt8} {n : Nat} (h : hexUnit s = .ok (n, r)) :
    r.length ≤ s.length := by
  unfold hexUnit at h
  split at h
  · split at h
    · cases h
      simp only [List.length_cons]
      omega
    · cases h
  · cases h

theorem lowSurrogate_length_le {high : Nat} {s r : List UInt8} {c : Char}
    (h : lowSurrogate high s = .ok (c, r)) : r.length ≤ s.length := by
  unfold lowSurrogate at h
  repeat' split at h
  all_goals simp only [reduceCtorEq, Except.ok.injEq, Prod.mk.injEq] at h
  rename_i hunit _
  have hle := hexUnit_length_le hunit
  simp only [List.length_cons, ← h.2]
  omega

theorem unicodeEscape_length_le {s r : List UInt8} {c : Char}
    (h : unicodeEscape s = .ok (c, r)) : r.length ≤ s.length := by
  unfold unicodeEscape at h
  split at h
  · cases h
  · rename_i hunit
    have hr := hexUnit_length_le hunit
    split at h
    · cases h
    · split at h
      · exact Nat.le_trans (lowSurrogate_length_le h) hr
      · cases h
        exact hr

theorem escape_length_le {s r : List UInt8} {c : Char} (h : escape s = .ok (c, r)) :
    r.length ≤ s.length := by
  cases s with
  | nil => cases h
  | cons b s =>
    simp only [escape] at h
    repeat' split at h
    all_goals first
      | (cases h; exact Nat.le_succ _)
      | cases h
      | exact Nat.le_succ_of_le (unicodeEscape_length_le h)

/-- The text of octets that were taken one after another, the last one first. -/
def textOfTaken (taken : List UInt8) : Except ReadError String :=
  match Text.ofUtf8? taken.reverse with
  | some text => .ok text
  | none => .error .invalidCodePoint

/-- A string up to its closing quote. The octets taken so far are kept in reverse, and are only
looked at as UTF-8 once the string is complete. -/
def stringFrom (taken : List UInt8) (s : List UInt8) : Except ReadError (String × List UInt8) :=
  match s with
  | [] => .error .endInString
  | b :: s =>
    if b = octet '"' then (textOfTaken taken).map fun text => (text, s)
    else if b = octet '\\' then
      match h : escape s with
      | .error e => .error e
      | .ok (c, r) =>
        have := escape_length_le h
        stringFrom ((String.utf8EncodeChar c).reverse ++ taken) r
    else if b < 0x20 then .error .controlCharacter
    else stringFrom (b :: taken) s
termination_by s.length

def string (s : List UInt8) : Except ReadError (String × List UInt8) := stringFrom [] s

theorem stringFrom_length_le {taken s r : List UInt8} {text : String}
    (h : stringFrom taken s = .ok (text, r)) : r.length ≤ s.length := by
  fun_induction stringFrom taken s with
  | case1 => cases h
  | case2 taken s =>
    cases ht : textOfTaken taken with
    | error e => simp [ht, Except.map] at h
    | ok text =>
      simp only [ht, Except.map, Except.ok.injEq, Prod.mk.injEq] at h
      exact h.2 ▸ Nat.le_succ _
  | case3 => cases h
  | case4 taken s c r' _ hle _ ih => exact Nat.le_succ_of_le (Nat.le_trans (ih h) hle)
  | case5 => cases h
  | case6 taken b s _ _ _ ih => exact Nat.le_succ_of_le (ih h)

theorem string_length_le {s r : List UInt8} {text : String} (h : string s = .ok (text, r)) :
    r.length ≤ s.length := stringFrom_length_le h

/-! ### Numbers -/

def isDigit (b : UInt8) : Bool := octet '0' ≤ b && b ≤ octet '9'

def digitValue (b : UInt8) : Nat := b.toNat - (octet '0').toNat

/-- The digits before the point: a single zero, or digits that begin with another one. -/
def wholeDigits : List UInt8 → Except ReadError (List UInt8 × List UInt8)
  | [] => .error .endInValue
  | b :: s =>
    if b = octet '0' then
      if (s.takeWhile isDigit).isEmpty then .ok ([b], s) else .error .invalidNumber
    else if isDigit b then .ok (b :: s.takeWhile isDigit, s.dropWhile isDigit)
    else .error .invalidNumber

def someDigits (s : List UInt8) : Except ReadError (List UInt8 × List UInt8) :=
  if (s.takeWhile isDigit).isEmpty then
    .error (if s.isEmpty then .endInValue else .invalidNumber)
  else .ok (s.takeWhile isDigit, s.dropWhile isDigit)

def fractionDigits : List UInt8 → Except ReadError (Option (List UInt8) × List UInt8)
  | [] => .ok (none, [])
  | b :: s =>
    if b = octet '.' then (someDigits s).map fun (ds, r) => (some ds, r)
    else .ok (none, b :: s)

def digitsValue (ds : List UInt8) : Nat := ds.foldl (fun n d => 10 * n + digitValue d) 0

def signedExponent : List UInt8 → Except ReadError (Int × List UInt8)
  | [] => .error .endInValue
  | b :: s =>
    if b = octet '+' then (someDigits s).map fun (ds, r) => ((digitsValue ds : Int), r)
    else if b = octet '-' then (someDigits s).map fun (ds, r) => (-(digitsValue ds : Int), r)
    else (someDigits (b :: s)).map fun (ds, r) => ((digitsValue ds : Int), r)

def exponent : List UInt8 → Except ReadError (Option Int × List UInt8)
  | [] => .ok (none, [])
  | b :: s =>
    if b = octet 'e' ∨ b = octet 'E' then (signedExponent s).map fun (e, r) => (some e, r)
    else .ok (none, b :: s)

/-- Takes digits into a number as long as it fits in 64 bits. Gives the number and the digits that
were left out. -/
def absorb (n : Nat) : List UInt8 → Nat × List UInt8
  | [] => (n, [])
  | d :: ds =>
    if n * 10 + digitValue d < 0x10000000000000000 then absorb (n * 10 + digitValue d) ds
    else (n, d :: ds)

/-- The power of ten that scales a significand. The exponent is at most 308. -/
def powerOfTen (n : Nat) : Float := Float.ofScientific 1 false n

/-- Divides by powers of ten, 308 digits at a time. Each division rounds. -/
def scaleDown (x : Float) (digits : Nat) : Float :=
  if x == 0 then x
  else if digits ≤ 308 then x / powerOfTen digits
  else scaleDown (x / powerOfTen 308) (digits - 308)
termination_by digits

/-- The float of a significand and a decimal exponent: the significand is rounded to a float, and
the power of ten is then multiplied or divided, which rounds once more. -/
def scale (negative : Bool) (significand : Nat) (e : Int) : Except ReadError Number :=
  let x := (UInt64.ofNat significand).toFloat
  let y := if x == 0 then x
    else if e < 0 then scaleDown x e.natAbs
    else if e.natAbs ≤ 308 then x * powerOfTen e.natAbs
    else 1 / 0
  match FiniteFloat.ofFloat? (if negative then -y else y) with
  | some y => .ok (.real y)
  | none => .error .numberOutOfRange

/-- The number with the given parts. It is an integer when it is written like one and fits in 64
bits, except for a negative zero. Digits beyond 64 bits are dropped, and those before the point
still count for its size. -/
def assemble (negative : Bool) (whole : List UInt8) (fraction : Option (List UInt8))
    (e : Option Int) : Except ReadError Number :=
  let (n, left) := absorb 0 whole
  let (significand, dropped) := absorb n (fraction.getD [])
  -- A digit left out before the point makes the number ten times as large.
  let shift : Int := left.length + dropped.length - (fraction.getD []).length
  -- The integers have no negative zero, so it has to be a float.
  let isInteger := left.isEmpty && fraction.isNone && e.isNone
  let value : Int := if negative then -n else n
  match if isInteger && !(negative && n == 0) then Integer.ofInt? value else none with
  | some i => .ok (.integer i)
  | none => scale negative significand (shift + e.getD 0)

def number (negative : Bool) (s : List UInt8) : Except ReadError (Number × List UInt8) := do
  let (whole, s) ← wholeDigits s
  let (fraction, s) ← fractionDigits s
  let (e, s) ← exponent s
  let n ← assemble negative whole fraction e
  return (n, s)

theorem wholeDigits_length_le {s ds r : List UInt8} (h : wholeDigits s = .ok (ds, r)) :
    r.length ≤ s.length := by
  cases s with
  | nil => cases h
  | cons b s =>
    simp only [wholeDigits] at h
    repeat' split at h
    all_goals cases h
    · exact Nat.le_succ _
    · exact Nat.le_succ_of_le (length_dropWhile_le isDigit s)

theorem someDigits_length_le {s ds r : List UInt8} (h : someDigits s = .ok (ds, r)) :
    r.length ≤ s.length := by
  unfold someDigits at h
  split at h
  · cases h
  · cases h
    exact length_dropWhile_le isDigit s

theorem fractionDigits_length_le {s r : List UInt8} {ds : Option (List UInt8)}
    (h : fractionDigits s = .ok (ds, r)) : r.length ≤ s.length := by
  cases s with
  | nil => cases h; exact Nat.le_refl _
  | cons b s =>
    simp only [fractionDigits] at h
    split at h
    · cases hs : someDigits s with
      | error e => simp [hs, Except.map] at h
      | ok p =>
        simp only [hs, Except.map, Except.ok.injEq, Prod.mk.injEq] at h
        exact h.2 ▸ Nat.le_succ_of_le (someDigits_length_le hs)
    · cases h; exact Nat.le_refl _

theorem signedExponent_length_le {s r : List UInt8} {e : Int}
    (h : signedExponent s = .ok (e, r)) : r.length ≤ s.length := by
  have key (t : List UInt8) (f : Nat → Int)
      (ht : (someDigits t).map (fun (ds, r) => (f (digitsValue ds), r)) = .ok (e, r)) :
      r.length ≤ t.length := by
    cases hs : someDigits t with
    | error e => simp [hs, Except.map] at ht
    | ok p =>
      simp only [hs, Except.map, Except.ok.injEq, Prod.mk.injEq] at ht
      exact ht.2 ▸ someDigits_length_le hs
  cases s with
  | nil => cases h
  | cons b s =>
    simp only [signedExponent] at h
    split at h
    · exact Nat.le_succ_of_le (key s (fun n => (n : Int)) h)
    · split at h
      · exact Nat.le_succ_of_le (key s (fun n => -(n : Int)) h)
      · exact key (b :: s) (fun n => (n : Int)) h

theorem exponent_length_le {s r : List UInt8} {e : Option Int}
    (h : exponent s = .ok (e, r)) : r.length ≤ s.length := by
  cases s with
  | nil => cases h; exact Nat.le_refl _
  | cons b s =>
    simp only [exponent] at h
    split at h
    · cases hs : signedExponent s with
      | error e => simp [hs, Except.map] at h
      | ok p =>
        simp only [hs, Except.map, Except.ok.injEq, Prod.mk.injEq] at h
        exact h.2 ▸ Nat.le_succ_of_le (signedExponent_length_le hs)
    · cases h; exact Nat.le_refl _

theorem number_length_le {negative : Bool} {s r : List UInt8} {n : Number}
    (h : number negative s = .ok (n, r)) : r.length ≤ s.length := by
  unfold number at h
  cases hw : wholeDigits s with
  | error e => simp [hw, bind, Except.bind] at h
  | ok w =>
    cases hf : fractionDigits w.2 with
    | error e => simp [hw, hf, bind, Except.bind] at h
    | ok f =>
      cases he : exponent f.2 with
      | error e => simp [hw, hf, he, bind, Except.bind] at h
      | ok e =>
        cases ha : assemble negative w.1 f.1 e.1 with
        | error e => simp [hw, hf, he, ha, bind, Except.bind] at h
        | ok a =>
          simp only [hw, hf, he, ha, bind, Except.bind, pure, Except.pure, Except.ok.injEq,
            Prod.mk.injEq] at h
          calc r.length = e.2.length := by rw [h.2]
            _ ≤ f.2.length := exponent_length_le he
            _ ≤ w.2.length := fractionDigits_length_le hf
            _ ≤ s.length := wholeDigits_length_le hw

end Gelf.Json
