import Gelf.Checksum
import Gelf.Deflate.Encoding

/-!
# Compression

A payload may be put into a gzip or zlib container. Receivers know the container by its first
octets.
-/

namespace Gelf

inductive Compression
  | none
  | gzip
  | zlib
  deriving DecidableEq, Repr

structure CompressionNameError where
  name : String
  deriving DecidableEq, Repr

def CompressionNameError.message (e : CompressionNameError) : String :=
  "unknown compression `" ++ e.name ++ "`, expected none, gzip or zlib"

namespace Compression

def name : Compression → String
  | .none => "none"
  | .gzip => "gzip"
  | .zlib => "zlib"

/-- The compression of a name. Case is that of ASCII, and no name means no compression. -/
def parse (s : String) : Except CompressionNameError Compression :=
  let folded := String.ofList (s.toList.map Char.toLower)
  if folded = "" ∨ folded = "none" then .ok .none
  else if folded = "gzip" then .ok .gzip
  else if folded = "zlib" then .ok .zlib
  else .error ⟨s⟩

/-- The first octets of a gzip container: magic, the method, and neither flags nor a time. -/
def gzipHeader : List UInt8 := [0x1f, 0x8b, 8, 0, 0, 0, 0, 0, 0, 0xff]

/-- The first octets of a zlib container: the method, and a check that makes them divisible by
31. -/
def zlibHeader : List UInt8 := [0x78, 0x9c]

def gzipTrailer (data : List UInt8) : List UInt8 :=
  littleEndian (crc32 data) ++ littleEndian (UInt32.ofNat data.length)

def zlibTrailer (data : List UInt8) : List UInt8 := bigEndian (adler32 data)

def compress (c : Compression) (data : List UInt8) : List UInt8 :=
  match c with
  | .none => data
  | .gzip => gzipHeader ++ Deflate.deflate data ++ gzipTrailer data
  | .zlib => zlibHeader ++ Deflate.deflate data ++ zlibTrailer data

/-- What is in a container behind its header, when the trailer is that of the data. -/
def openContainer (header : List UInt8) (trailer : List UInt8 → List UInt8) (bytes : List UInt8) :
    Option (List UInt8) :=
  if header.isPrefixOf bytes then
    match Deflate.inflate (bytes.drop header.length) with
    | some (data, rest) => if rest = trailer data then some data else Option.none
    | Option.none => Option.none
  else Option.none

def expand? (c : Compression) (bytes : List UInt8) : Option (List UInt8) :=
  match c with
  | .none => some bytes
  | .gzip => openContainer gzipHeader gzipTrailer bytes
  | .zlib => openContainer zlibHeader zlibTrailer bytes

def detect : List UInt8 → Compression
  | a :: b :: _ =>
    if a = 0x1f ∧ b = 0x8b then .gzip
    else if a = 0x78 ∧ (a.toNat * 256 + b.toNat) % 31 = 0 then .zlib
    else .none
  | _ => .none

end Compression

end Gelf
