/-!
# Checksums

The running checksums of compressed containers.
-/

namespace Gelf

def crcBit (c : UInt32) : UInt32 :=
  if c &&& 1 = 1 then (c >>> 1) ^^^ 0xedb88320 else c >>> 1

def crcOctet (c : UInt32) (b : UInt8) : UInt32 :=
  crcBit (crcBit (crcBit (crcBit (crcBit (crcBit (crcBit (crcBit (c ^^^ b.toUInt32))))))))

def crc32 (bytes : List UInt8) : UInt32 := bytes.foldl crcOctet 0xffffffff ^^^ 0xffffffff

/-- The sums of Adler-32 after one more octet. Both are kept below 65521. -/
def adlerOctet (sums : UInt32 × UInt32) (b : UInt8) : UInt32 × UInt32 :=
  let low := (sums.1 + b.toUInt32) % 65521
  (low, (sums.2 + low) % 65521)

def adler32 (bytes : List UInt8) : UInt32 :=
  let sums := bytes.foldl adlerOctet (1, 0)
  (sums.2 <<< 16) ||| sums.1

def littleEndian (n : UInt32) : List UInt8 :=
  [n.toUInt8, (n >>> 8).toUInt8, (n >>> 16).toUInt8, (n >>> 24).toUInt8]

def bigEndian (n : UInt32) : List UInt8 := (littleEndian n).reverse

end Gelf
