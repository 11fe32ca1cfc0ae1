import Gelf.Codec
import Gelf.Proofs.Deflate.RoundTrip

/-!
# Expanding compressed data

Each compression is undone by its own expansion: the header is found, the data is inflated, and what
is left is the trailer of the data.
-/

namespace Gelf

namespace Compression

theorem openContainer_eq_some (header : List UInt8) (trailer : List UInt8 → List UInt8)
    (data : List UInt8) :
    openContainer header trailer (header ++ Deflate.deflate data ++ trailer data) = some data := by
  have hheader : header.isPrefixOf (header ++ (Deflate.deflate data ++ trailer data)) = true :=
    List.isPrefixOf_iff_prefix.2 (List.prefix_append _ _)
  rw [List.append_assoc, openContainer, if_pos hheader, List.drop_left,
    Deflate.inflate_deflate data (trailer data)]
  exact if_pos rfl

/-- **Compression is lossless.** Expanding compressed data gives the data. -/
theorem expand?_compress (c : Compression) (data : List UInt8) :
    c.expand? (c.compress data) = some data := by
  cases c with
  | none => rfl
  | gzip => exact openContainer_eq_some gzipHeader gzipTrailer data
  | zlib => exact openContainer_eq_some zlibHeader zlibTrailer data

end Compression

namespace Codec

theorem own_compress (c : Compression) (data : List UInt8) :
    own.compress c data = .ok (c.compress data) := by
  cases c <;> rfl

theorem own_neverFails : own.NeverFails := ⟨fun _ => ⟨_, rfl⟩, fun _ => ⟨_, rfl⟩⟩

theorem own_inverts : own.Inverts := by
  constructor
  · intro data bytes h
    rw [← Except.ok.inj h]
    exact Compression.gzip.expand?_compress data
  · intro data bytes h
    rw [← Except.ok.inj h]
    exact Compression.zlib.expand?_compress data

theorem own_marks : own.Marks := by
  constructor
  · intro data bytes h
    rw [← Except.ok.inj h]
    exact ⟨_, rfl⟩
  · intro data bytes h
    rw [← Except.ok.inj h]
    exact ⟨_, rfl⟩

end Codec

end Gelf
