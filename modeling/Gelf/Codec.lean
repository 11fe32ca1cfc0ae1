import Gelf.Compression
import Gelf.Fault

/-!
# Codecs

What puts data into containers and takes it out again. A shipper works with any codec, and so does a
receiver. What they expect of one is said in laws, and what needs a law asks for it.
-/

namespace Gelf

structure Codec where
  gzip : List UInt8 → Except IoError (List UInt8)
  zlib : List UInt8 → Except IoError (List UInt8)
  gunzip? : List UInt8 → Option (List UInt8)
  unzlib? : List UInt8 → Option (List UInt8)

namespace Codec

/-- The codec that writes and opens the containers of `Compression`. -/
def own : Codec where
  gzip data := .ok (Compression.gzip.compress data)
  zlib data := .ok (Compression.zlib.compress data)
  gunzip? := Compression.gzip.expand?
  unzlib? := Compression.zlib.expand?

/-- Payloads stay as they are without compression. Trouble with a container is one of encoding. -/
def compress (codec : Codec) (c : Compression) (data : List UInt8) : Except Fault (List UInt8) :=
  match c with
  | .none => .ok data
  | .gzip => (codec.gzip data).mapError .encoding
  | .zlib => (codec.zlib data).mapError .encoding

def expand? (codec : Codec) (c : Compression) (bytes : List UInt8) : Option (List UInt8) :=
  match c with
  | .none => some bytes
  | .gzip => codec.gunzip? bytes
  | .zlib => codec.unzlib? bytes

/-! ### Laws -/

/-- Containers begin with the octets of their format. -/
structure Marks (codec : Codec) : Prop where
  gzip : ∀ data bytes, codec.gzip data = .ok bytes → [0x1f, 0x8b] <+: bytes
  zlib : ∀ data bytes, codec.zlib data = .ok bytes → [0x78] <+: bytes

/-- Containers give back what was put into them. -/
structure Inverts (codec : Codec) : Prop where
  gzip : ∀ data bytes, codec.gzip data = .ok bytes → codec.gunzip? bytes = some data
  zlib : ∀ data bytes, codec.zlib data = .ok bytes → codec.unzlib? bytes = some data

/-- All data can be put into containers. -/
structure NeverFails (codec : Codec) : Prop where
  gzip : ∀ data, ∃ bytes, codec.gzip data = .ok bytes
  zlib : ∀ data, ∃ bytes, codec.zlib data = .ok bytes

variable {codec : Codec} {c : Compression} {data bytes : List UInt8}

theorem mapError_eq_ok_iff {result : Except IoError (List UInt8)} :
    result.mapError Fault.encoding = .ok bytes ↔ result = .ok bytes := by
  cases result with
  | error e => exact iff_of_false nofun nofun
  | ok out => exact ⟨fun h => congrArg _ (Except.ok.inj h), fun h => congrArg _ (Except.ok.inj h)⟩

theorem exists_of_mapError_eq_error {result : Except IoError (List UInt8)} {fault : Fault}
    (h : result.mapError Fault.encoding = .error fault) : ∃ e, fault = .encoding e := by
  cases result with
  | error e => exact ⟨e, (Except.error.inj h).symm⟩
  | ok out => cases h

/-- A codec is only ever at fault in encoding. -/
theorem exists_of_compress_eq_error {fault : Fault}
    (h : codec.compress c data = .error fault) : ∃ e, fault = .encoding e := by
  cases c with
  | none => cases h
  | gzip => exact exists_of_mapError_eq_error h
  | zlib => exact exists_of_mapError_eq_error h

theorem Inverts.expand?_eq_some (hinverts : codec.Inverts)
    (h : codec.compress c data = .ok bytes) : codec.expand? c bytes = some data := by
  cases c with
  | none => exact congrArg some (Except.ok.inj h).symm
  | gzip => exact hinverts.gzip data bytes (mapError_eq_ok_iff.1 h)
  | zlib => exact hinverts.zlib data bytes (mapError_eq_ok_iff.1 h)

/-- Compressed data begins with the octets of its format, and other data stays as it is. -/
theorem Marks.bytes_eq (hmarks : codec.Marks) (h : codec.compress c data = .ok bytes) :
    (c = .none ∧ bytes = data) ∨ (c = .gzip ∧ ∃ rest, bytes = 0x1f :: 0x8b :: rest) ∨
      (c = .zlib ∧ ∃ rest, bytes = 0x78 :: rest) := by
  cases c with
  | none => exact .inl ⟨rfl, (Except.ok.inj h).symm⟩
  | gzip =>
    obtain ⟨rest, hrest⟩ := hmarks.gzip data bytes (mapError_eq_ok_iff.1 h)
    exact .inr (.inl ⟨rfl, rest, hrest.symm⟩)
  | zlib =>
    obtain ⟨rest, hrest⟩ := hmarks.zlib data bytes (mapError_eq_ok_iff.1 h)
    exact .inr (.inr ⟨rfl, rest, hrest.symm⟩)

theorem Marks.ne_nil (hmarks : codec.Marks) (hdata : data ≠ [])
    (h : codec.compress c data = .ok bytes) : bytes ≠ [] := by
  rcases hmarks.bytes_eq h with ⟨-, rfl⟩ | ⟨-, rest, rfl⟩ | ⟨-, rest, rfl⟩
  · exact hdata
  · exact List.cons_ne_nil _ _
  · exact List.cons_ne_nil _ _

theorem NeverFails.exists_compress_eq_ok (hnever : codec.NeverFails) (c : Compression)
    (data : List UInt8) : ∃ bytes, codec.compress c data = .ok bytes := by
  cases c with
  | none => exact ⟨data, rfl⟩
  | gzip =>
    obtain ⟨bytes, hbytes⟩ := hnever.gzip data
    exact ⟨bytes, mapError_eq_ok_iff.2 hbytes⟩
  | zlib =>
    obtain ⟨bytes, hbytes⟩ := hnever.zlib data
    exact ⟨bytes, mapError_eq_ok_iff.2 hbytes⟩

theorem NeverFails.compress_ne_error (hnever : codec.NeverFails) (fault : Fault) :
    codec.compress c data ≠ .error fault := by
  obtain ⟨bytes, hbytes⟩ := hnever.exists_compress_eq_ok c data
  rw [hbytes]
  nofun

end Codec

end Gelf
