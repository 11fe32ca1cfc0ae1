import Gelf.Deflate.Inflate
import Gelf.Deflate.Repetition
import Mathlib.Algebra.Order.Group.Nat

/-!
# Pieces describe their data

A repetition that was found by comparing octets gives these octets again when it is copied back. So
the pieces that were found in some data, put behind each other, are the data, whatever places were
remembered on the way.
-/

namespace Gelf.Deflate

/-- Lengths and distances that have a symbol. -/
def Piece.IsInRange : Piece → Prop
  | .literal _ => True
  | .copy length distance => (3 ≤ length ∧ length < 259) ∧ 1 ≤ distance ∧ distance < 32769

/-- Pieces that turn `out` into `data` one after another. -/
inductive Describes (data : Array UInt8) : Array UInt8 → List Piece → Prop
  | done : Describes data data []
  | literal {out : Array UInt8} {pieces : List Piece} (b : UInt8)
    (rest : Describes data (out.push b) pieces) : Describes data out (.literal b :: pieces)
  | copy {out : Array UInt8} {pieces : List Piece} (length distance : Nat)
    (isInRange : (Piece.copy length distance).IsInRange) (distance_le : distance ≤ out.size)
    (rest : Describes data (copyBack distance length out) pieces) :
    Describes data out (.copy length distance :: pieces)

theorem Describes.isInRange {data out : Array UInt8} {pieces : List Piece}
    (h : Describes data out pieces) : ∀ piece ∈ pieces, piece.IsInRange := by
  induction h with
  | done => exact fun _ hmem => nomatch hmem
  | literal b rest ih => exact List.forall_mem_cons.2 ⟨trivial, ih⟩
  | copy length distance isInRange distance_le rest ih =>
    exact List.forall_mem_cons.2 ⟨isInRange, ih⟩

/-! ### Repetitions -/

/-- So many octets from a place on repeat the octets at a distance in front of them. -/
structure IsRepetition (data : Array UInt8) (i length distance : Nat) : Prop where
  distance_pos : 1 ≤ distance
  distance_le : distance ≤ i
  same : ∀ k < length, data.getD (i + k) 0 = data.getD (i + k - distance) 0

theorem IsRepetition.copyBack_eq {data : Array UInt8} {i length distance : Nat}
    (h : IsRepetition data i length distance) (hend : i + length ≤ data.size) :
    copyBack distance length (data.extract 0 i) = data.extract 0 (i + length) := by
  induction length generalizing i with
  | zero => rfl
  | succ length ih =>
    have hpos := h.distance_pos
    have hback := h.distance_le
    have hi : i < data.size := by omega
    have hsize : (data.extract 0 i).size = i := by
      rw [Array.size_extract]
      omega
    have hoctet : (data.extract 0 i).getD (i - distance) 0 = data[i] := by
      have hsame := h.same 0 (Nat.succ_pos length)
      rw [Nat.add_zero] at hsame
      rw [Array.getD_eq_getD_getElem?, Array.getD_eq_getD_getElem?,
        Array.getElem?_eq_getElem hi, Option.getD_some] at hsame
      rw [hsame, Array.getD_eq_getD_getElem?, Array.getElem?_extract, if_pos (by omega),
        Nat.zero_add]
    have hrest : IsRepetition data (i + 1) length distance := by
      refine ⟨hpos, by omega, fun k hk => ?_⟩
      have hsame := h.same (k + 1) (Nat.succ_lt_succ hk)
      rwa [Nat.add_comm k 1, ← Nat.add_assoc] at hsame
    rw [copyBack, hsize, hoctet, Array.push_extract_getElem hi, Nat.zero_min,
      ih hrest (by omega), Nat.add_right_comm, Nat.add_assoc]

theorem sameOctets_spec (data : Array UInt8) (i j limit n : Nat) :
    sameOctets data i j limit n ≤ n + limit ∧ ∀ k, n ≤ k → k < sameOctets data i j limit n →
      data.getD (i + k) 0 = data.getD (j + k) 0 := by
  induction limit generalizing n with
  | zero => exact ⟨Nat.le_refl n, fun k hle hlt => absurd hle hlt.not_ge⟩
  | succ limit ih =>
    rw [sameOctets]
    split
    next hsame =>
      refine ⟨(ih (n + 1)).1.trans (by omega), fun k hle hlt => ?_⟩
      rcases Nat.eq_or_lt_of_le hle with rfl | hlt'
      · exact hsame
      · exact (ih (n + 1)).2 k hlt' hlt
    next => exact ⟨Nat.le_add_right n _, fun k hle hlt => absurd hle hlt.not_ge⟩

/-- A length and a distance that can be taken as a repetition, if the length is any. -/
structure IsCandidate (data : Array UInt8) (i limit : Nat) (best : Nat × Nat) : Prop where
  length_le : best.1 ≤ limit
  distance_lt : best.2 < 32769
  isRepetition : 0 < best.1 → IsRepetition data i best.1 best.2

theorem isCandidate_sameOctets (data : Array UInt8) (limit : Nat) {i j : Nat} (hj : j < i)
    (hdistance : i - j < 32769) :
    IsCandidate data i limit (sameOctets data i j limit 0, i - j) := by
  obtain ⟨hle, hsame⟩ := sameOctets_spec data i j limit 0
  refine ⟨by omega, hdistance, fun _ => ⟨by omega, by omega, fun k hk => ?_⟩⟩
  rw [hsame k (Nat.zero_le k) hk]
  congr 1
  omega

theorem isCandidate_longest {data : Array UInt8} {i limit : Nat} (earlier : Array Nat)
    (tries place : Nat) {best : Nat × Nat} (h : IsCandidate data i limit best) :
    IsCandidate data i limit (longest data earlier i limit tries place best) := by
  induction tries generalizing place best with
  | zero => exact h
  | succ tries ih =>
    rw [longest]
    split
    next => exact h
    next hplace =>
      have hfound := isCandidate_sameOctets data limit (show place - 1 < i by omega) (by omega)
      dsimp only
      split
      next => exact iteInduction (fun _ => hfound) (fun _ => ih _ hfound)
      next => exact iteInduction (fun _ => h) (fun _ => ih _ h)

theorem repetitionAt_eq_some {data : Array UInt8} {places : Places} {i length distance : Nat}
    (h : repetitionAt data places i = some (length, distance)) :
    (Piece.copy length distance).IsInRange ∧ i + length ≤ data.size ∧
      IsRepetition data i length distance := by
  have hnone : IsCandidate data i (min 258 (data.size - i)) (0, 0) :=
    ⟨Nat.zero_le _, Nat.succ_pos _, fun hpos => absurd hpos (Nat.lt_irrefl 0)⟩
  have hcandidate := isCandidate_longest places.earlier 64
    (places.latest.getD (hashAt data i) 0) hnone
  unfold repetitionAt at h
  dsimp only at h
  split at h
  next => cases h
  next hlength =>
    rw [Option.some.inj h] at hlength hcandidate
    have hrepetition := hcandidate.isRepetition (by omega)
    have hle := hcandidate.length_le
    have hpos := hrepetition.distance_pos
    exact ⟨⟨by omega, hpos, hcandidate.distance_lt⟩, by omega, hrepetition⟩

/-! ### All pieces -/

theorem exists_piecesFrom_eq (data : Array UInt8) (i : Nat) (places : Places)
    (found : Array Piece) (hi : i ≤ data.size) :
    ∃ rest, (piecesFrom data i places found).toList = found.toList ++ rest ∧
      Describes data (data.extract 0 i) rest := by
  induction i, places, found using piecesFrom.induct data with
  | case1 i places found h hnone ih =>
    obtain ⟨rest, hfound, hdescribes⟩ := ih h
    refine ⟨.literal data[i] :: rest, ?_, .literal data[i] ?_⟩
    · rw [piecesFrom, dif_pos h, hnone, hfound]
      simp
    · rwa [Array.push_extract_getElem h, Nat.zero_min]
  | case2 i places found h length distance hsome ih =>
    obtain ⟨hrange, hend, hrepetition⟩ := repetitionAt_eq_some hsome
    have hnext : i + 1 + (length - 1) = i + length := by
      have hlength := hrange.1.1
      omega
    rw [hnext] at ih
    obtain ⟨rest, hfound, hdescribes⟩ := ih hend
    refine ⟨.copy length distance :: rest, ?_, .copy length distance hrange ?_ ?_⟩
    · rw [piecesFrom, dif_pos h, hsome]
      dsimp only
      rw [hnext, hfound]
      simp
    · have hle := hrepetition.distance_le
      rw [Array.size_extract]
      omega
    · rwa [hrepetition.copyBack_eq hend]
  | case3 i places found h =>
    obtain rfl : i = data.size := by omega
    refine ⟨[], ?_, ?_⟩
    · rw [piecesFrom, dif_neg h, List.append_nil]
    · rw [Array.extract_size]
      exact .done

/-- **The pieces of data describe it.** -/
theorem describes_pieces (data : Array UInt8) : Describes data #[] (pieces data) := by
  obtain ⟨rest, hfound, hdescribes⟩ :=
    exists_piecesFrom_eq data 0 (.empty data.size) #[] (Nat.zero_le _)
  rw [pieces, hfound]
  simpa using hdescribes

end Gelf.Deflate
