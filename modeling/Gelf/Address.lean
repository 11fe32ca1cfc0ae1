import Gelf.Text.Digit

/-!
# Addresses

Addresses of the two versions of the internet protocol, their literal texts, and their canonical
texts.
-/

namespace Gelf

inductive Address
  | v4 (octets : Vector UInt8 4)
  | v6 (groups : Vector UInt16 8)
  deriving DecidableEq

def splitAtChar (sep : Char) (cs : List Char) : List (List Char) :=
  cs.foldr (fun c parts =>
    if c = sep then [] :: parts
    else match parts with
      | part :: rest => (c :: part) :: rest
      | [] => [[c]]) [[]]

namespace Address

/-- A decimal octet of at most three digits, without a zero in front. -/
def octet? (cs : List Char) : Option UInt8 :=
  if 0 < cs.length ∧ cs.length ≤ 3 ∧ cs.all Char.isDigit ∧
      (cs.head? ≠ some '0' ∨ cs.length = 1) then
    let n := Text.digitsValue cs
    if n < 256 then some (UInt8.ofNat n) else none
  else none

def octets? (cs : List Char) : Option (Vector UInt8 4) :=
  match (splitAtChar '.' cs).mapM octet? with
  | some [a, b, c, d] => some #v[a, b, c, d]
  | _ => none

/-- A group of one to four hexadecimal digits. -/
def group? (cs : List Char) : Option UInt16 :=
  if 0 < cs.length ∧ cs.length ≤ 4 then
    (cs.mapM Text.hexDigit?).map fun ds => UInt16.ofNat (ds.foldl (fun n d => 16 * n + d) 0)
  else none

def joinOctets (high low : UInt8) : UInt16 := high.toUInt16 <<< 8 ||| low.toUInt16

def octetsOfGroup (g : UInt16) : List UInt8 := [(g >>> 8).toUInt8, g.toUInt8]

/-- Groups between colons. Where `mayEndInOctets`, four decimal octets may stand for the last
two. -/
def groups? (mayEndInOctets : Bool) : List (List Char) → Option (List UInt16)
  | [] => some []
  | [part] =>
    match (if mayEndInOctets then octets? part else none), group? part with
    | some o, _ => some [joinOctets o[0] o[1], joinOctets o[2] o[3]]
    | none, some g => some [g]
    | none, none => none
  | part :: parts =>
    match group? part, groups? mayEndInOctets parts with
    | some g, some gs => some (g :: gs)
    | _, _ => none

def groupsOfText? (mayEndInOctets : Bool) (cs : List Char) : Option (List UInt16) :=
  if cs = [] then some [] else groups? mayEndInOctets (splitAtChar ':' cs)

def splitAtGap : List Char → Option (List Char × List Char)
  | ':' :: ':' :: cs => some ([], cs)
  | c :: cs => (splitAtGap cs).map fun (front, back) => (c :: front, back)
  | [] => none

def ofGroups? (groups : List UInt16) : Option Address :=
  if h : groups.length = 8 then some (.v6 ⟨groups.toArray, by simpa using h⟩) else none

/-- Eight groups. Two colons in a row stand for at least one group of zeros. -/
def v6? (cs : List Char) : Option Address :=
  match splitAtGap cs with
  | none => (groupsOfText? true cs).bind ofGroups?
  | some (front, back) =>
    match groupsOfText? false front, groupsOfText? true back with
    | some front, some back =>
      if front.length + back.length ≤ 7 then
        ofGroups? (front ++ List.replicate (8 - (front.length + back.length)) 0 ++ back)
      else none
    | _, _ => none

def parse? (s : String) : Option Address :=
  match octets? s.toList with
  | some o => some (.v4 o)
  | none => v6? s.toList

def octetsText (octets : List UInt8) : String :=
  ".".intercalate (octets.map fun b => toString b.toNat)

def groupText (g : UInt16) : String := String.ofList (Nat.toDigits 16 g.toNat)

def groupsText (groups : List UInt16) : String := ":".intercalate (groups.map groupText)

def zerosAtFront (groups : List UInt16) : Nat := (groups.takeWhile (· = 0)).length

/-- Where the longest run of zeros starts, and how long it is. Of equally long runs it is the
first. -/
def longestZeros (groups : List UInt16) : Nat × Nat :=
  (List.range groups.length).foldl
    (fun best i =>
      let n := zerosAtFront (groups.drop i)
      if best.2 < n then (i, n) else best) (0, 0)

/-- The canonical text of eight groups: the longest run of at least two zeros is left out, and
mapped addresses of the other version end in its octets. -/
def v6Text (groups : List UInt16) : String :=
  if groups.take 6 = [0, 0, 0, 0, 0, 0xffff] then
    "::ffff:" ++ octetsText ((groups.drop 6).flatMap octetsOfGroup)
  else
    let (start, n) := longestZeros groups
    if 1 < n then groupsText (groups.take start) ++ "::" ++ groupsText (groups.drop (start + n))
    else groupsText groups

def text : Address → String
  | .v4 octets => octetsText octets.toList
  | .v6 groups => v6Text groups.toList

end Address

structure Endpoint where
  address : Address
  port : UInt16
  deriving DecidableEq

namespace Endpoint

/-- The text of an endpoint. Brackets keep the colons of an address apart from that of the port. -/
def text (e : Endpoint) : String :=
  match e.address with
  | .v4 _ => e.address.text ++ ":" ++ toString e.port.toNat
  | .v6 _ => "[" ++ e.address.text ++ "]:" ++ toString e.port.toNat

end Endpoint

end Gelf
