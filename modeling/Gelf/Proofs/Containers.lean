import Gelf.Proofs.Checksum
import Gelf.Proofs.Compression
import Gelf.Proofs.Receiver

/-!
# Containers

Compressed data stands in a container that names its format in front and carries checks of the data
behind it. The check of a gzip container is the CRC-32 of the data with its length, and that of a
zlib container its Adler-32. An encoded message begins with a brace, so the first octets tell
whether it was compressed, and how.
-/

namespace Gelf

/-! ### Numbers in octets -/

/-- The number of octets of which the first one is the lowest. -/
def ofLittleEndian (octets : List UInt8) : Nat :=
  octets.foldr (fun b n => b.toNat + 256 * n) 0

def ofBigEndian (octets : List UInt8) : Nat := ofLittleEndian octets.reverse

@[simp]
theorem length_littleEndian (n : UInt32) : (littleEndian n).length = 4 := rfl

theorem ofLittleEndian_littleEndian (n : UInt32) : ofLittleEndian (littleEndian n) = n.toNat := by
  have hn := n.toNat_lt
  have hbyte (k : UInt32) : (n >>> k).toUInt8.toNat = n.toNat >>> (k.toNat % 32) % 256 := by
    rw [UInt32.toNat_toUInt8, UInt32.toNat_shiftRight]
  have hfirst : n.toUInt8.toNat = n.toNat % 256 := UInt32.toNat_toUInt8 n
  have hsecond : (n >>> 8).toUInt8.toNat = n.toNat / 256 % 256 := by
    rw [hbyte, Nat.shiftRight_eq_div_pow]
    rfl
  have hthird : (n >>> 16).toUInt8.toNat = n.toNat / 65536 % 256 := by
    rw [hbyte, Nat.shiftRight_eq_div_pow]
    rfl
  have hfourth : (n >>> 24).toUInt8.toNat = n.toNat / 16777216 % 256 := by
    rw [hbyte, Nat.shiftRight_eq_div_pow]
    rfl
  simp only [ofLittleEndian, littleEndian, List.foldr_cons, List.foldr_nil, hfirst, hsecond,
    hthird, hfourth]
  omega

/-! ### Formats -/

/-- A gzip container of data: the magic, the method, and no flags, so that the header has ten
octets. -/
inductive IsGzip (data : List UInt8) : List UInt8 → Prop
  | mk {rest body crc length : List UInt8} (hrest : rest.length = 6)
    (hbody : Deflate.inflate body = some (data, []))
    (hcrc : crc.length = 4 ∧ IsCrc32 data (ofLittleEndian crc))
    (hlength : length.length = 4 ∧ ofLittleEndian length = data.length % 2 ^ 32) :
    IsGzip data ([0x1f, 0x8b, 8, 0] ++ rest ++ body ++ crc ++ length)

/-- A zlib container of data. The second octet makes the header divisible by 31, and says that no
dictionary is needed. -/
inductive IsZlib (data : List UInt8) : List UInt8 → Prop
  | mk {flags : UInt8} {body adler : List UInt8} (hheader : (0x78 * 256 + flags.toNat) % 31 = 0)
    (hdictionary : flags &&& 0x20 = 0) (hbody : Deflate.inflate body = some (data, []))
    (hadler : adler.length = 4 ∧
      ofBigEndian adler = adlerHigh data % 65521 * 65536 + adlerLow data % 65521) :
    IsZlib data ([0x78, flags] ++ body ++ adler)

namespace Compression

/-- What the octets of compressed data have to be. -/
def Holds : Compression → List UInt8 → List UInt8 → Prop
  | .none, data, bytes => bytes = data
  | .gzip, data, bytes => IsGzip data bytes
  | .zlib, data, bytes => IsZlib data bytes

theorem inflate_deflate_nil (data : List UInt8) :
    Deflate.inflate (Deflate.deflate data) = some (data, []) := by
  have hinflate := Deflate.inflate_deflate data []
  rwa [List.append_nil] at hinflate

theorem isGzip_compress (data : List UInt8) : IsGzip data (gzip.compress data) := by
  have hcrc : IsCrc32 data (ofLittleEndian (littleEndian (crc32 data))) := by
    rw [ofLittleEndian_littleEndian]
    exact isCrc32_crc32 data
  have hlength : ofLittleEndian (littleEndian (UInt32.ofNat data.length)) =
      data.length % 2 ^ 32 := by
    rw [ofLittleEndian_littleEndian]
    exact UInt32.toNat_ofNat'
  have hrest : ([0, 0, 0, 0, 0, 0xff] : List UInt8).length = 6 := rfl
  have hgzip := IsGzip.mk hrest (inflate_deflate_nil data)
    ⟨length_littleEndian _, hcrc⟩ ⟨length_littleEndian _, hlength⟩
  rwa [List.append_assoc] at hgzip

theorem isZlib_compress (data : List UInt8) : IsZlib data (zlib.compress data) := by
  have hadler : ofBigEndian (bigEndian (adler32 data)) =
      adlerHigh data % 65521 * 65536 + adlerLow data % 65521 := by
    rw [ofBigEndian, bigEndian, List.reverse_reverse, ofLittleEndian_littleEndian, toNat_adler32]
  have hheader : (0x78 * 256 + UInt8.toNat 0x9c) % 31 = 0 := by decide
  exact .mk hheader (by decide) (inflate_deflate_nil data) ⟨rfl, hadler⟩

theorem holds_compress (c : Compression) (data : List UInt8) : c.Holds data (c.compress data) := by
  cases c with
  | none => rfl
  | gzip => exact isGzip_compress data
  | zlib => exact isZlib_compress data

/-- Data that begins with a brace is told from both containers. -/
theorem detect_compress (c : Compression) (s : List UInt8) :
    detect (c.compress (0x7b :: s)) = c := by
  cases c with
  | none =>
    cases s with
    | nil => rfl
    | cons b s => rfl
  | gzip => rfl
  | zlib => rfl

/-- **Compression.** All data is compressed into a container of its format that holds the data, and
expanded again. The first octets of a compressed message tell by which format. -/
theorem compressed_data_is_told_and_expanded (c : Compression) :
    (∀ data, ∃ bytes, Codec.own.compress c data = .ok bytes ∧ c.Holds data bytes ∧
      Codec.own.expand? c bytes = some data) ∧
      ∀ (encoder : Encoder) (event : Event) (payload : List UInt8),
        encoder.encode event = .ok payload →
          ∃ bytes, Codec.own.compress c payload = .ok bytes ∧ detect bytes = c ∧
            Receiver.compressionOf bytes = c ∧
            Codec.own.expand? (Receiver.compressionOf bytes) bytes = some payload := by
  have hexpand (data : List UInt8) : Codec.own.expand? c (c.compress data) = some data :=
    Codec.own_inverts.expand?_eq_some (Codec.own_compress c data)
  refine ⟨fun data => ⟨_, Codec.own_compress c data, holds_compress c data, hexpand data⟩,
    fun encoder event payload hencode => ?_⟩
  rw [Encoder.encode_eq] at hencode
  obtain ⟨r, -, rfl⟩ := Json.exists_of_map_eq_ok hencode
  obtain ⟨s, hs⟩ := Receiver.exists_bytes_eq r
  rw [hs]
  have hcompress := Codec.own_compress c (0x7b :: s)
  have htold := Receiver.compressionOf_of_compress Codec.own_marks hcompress
  refine ⟨_, hcompress, detect_compress c s, htold, ?_⟩
  rw [htold, hexpand]

theorem up_is_told_as_gzip :
    ∃ payload bytes,
      (Encoder.mk "web-1" FieldMap.empty).encode (Event.new 1.5 "up") = .ok payload ∧
        Codec.own.compress gzip payload = .ok bytes ∧ detect bytes = gzip ∧
          Codec.own.expand? gzip bytes = some payload := by
  obtain ⟨payload, hencode⟩ := @Encoder.exists_encode_of_not_blank
    (Encoder.mk "web-1" FieldMap.empty) (Event.new 1.5 "up") (by decide)
  obtain ⟨-, hencoded⟩ := compressed_data_is_told_and_expanded gzip
  obtain ⟨bytes, hcompress, hdetect, htold, hexpand⟩ := hencoded _ _ _ hencode
  rw [htold] at hexpand
  exact ⟨payload, bytes, hencode, hcompress, hdetect, hexpand⟩

end Compression

end Gelf
