import Gelf.Deflate.Encoding
import Gelf.Proofs.Deflate.Codes
import Gelf.Proofs.Deflate.Repetitions

/-!
# Reading pieces

A length or a distance is read from its symbol and its extra bits, since every value in range
belongs to the last entry of the table that starts at or before it. Where all symbols of some pieces
have codes, the pieces are read one after another, up to the end of their block.
-/

namespace Gelf.Deflate

/-! ### Tables -/

/-- No value below `limit` is left out between two entries, or behind the last one. -/
def IsGapless (limit : Nat) (entries : List (Nat × Nat)) : Prop :=
  List.IsChain (fun entry next => next.1 ≤ entry.1 + 2 ^ entry.2) (entries ++ [(limit, 0)])

instance (limit : Nat) (entries : List (Nat × Nat)) : Decidable (IsGapless limit entries) :=
  inferInstanceAs (Decidable (List.IsChain _ _))

theorem IsGapless.exists_getElem? {limit n : Nat} {entry : Nat × Nat} {entries : List (Nat × Nat)}
    (h : IsGapless limit (entry :: entries)) (hle : entry.1 ≤ n) (hlt : n < limit) :
    ∃ first extra, (entry :: entries)[(entries.takeWhile fun entry => entry.1 ≤ n).length]? =
      some (first, extra) ∧ first ≤ n ∧ n < first + 2 ^ extra := by
  induction entries generalizing entry with
  | nil =>
    have hlast : limit ≤ entry.1 + 2 ^ entry.2 := (List.isChain_cons_cons.1 h).1
    exact ⟨entry.1, entry.2, rfl, hle, hlt.trans_le hlast⟩
  | cons next entries ih =>
    obtain ⟨hnext, hrest⟩ := List.isChain_cons_cons.1 h
    by_cases hbegun : next.1 ≤ n
    · rw [List.takeWhile_cons_of_pos (by simpa using hbegun), List.length_cons,
        List.getElem?_cons_succ]
      exact ih hrest hbegun
    · rw [List.takeWhile_cons_of_neg (by simpa using hbegun)]
      exact ⟨entry.1, entry.2, rfl, hle, (Nat.not_le.1 hbegun).trans_le hnext⟩

/-- The values that a table has symbols for. -/
structure IsTable (first limit : Nat) (table : Array (Nat × Nat)) : Prop where
  exists_eq : ∃ extra entries, table.toList = (first, extra) :: entries
  isGapless : IsGapless limit table.toList

theorem isTable_lengthTable : IsTable 3 259 lengthTable := ⟨⟨_, _, rfl⟩, by decide⟩

theorem isTable_distanceTable : IsTable 1 32769 distanceTable := ⟨⟨_, _, rfl⟩, by decide⟩

theorem IsTable.exists_getElem? {first limit n : Nat} {table : Array (Nat × Nat)}
    (h : IsTable first limit table) (hle : first ≤ n) (hlt : n < limit) :
    ∃ base extra, table[symbolOf table n]? = some (base, extra) ∧ base ≤ n ∧
      n < base + 2 ^ extra := by
  obtain ⟨extra, entries, heq⟩ := h.exists_eq
  have hgapless := h.isGapless
  rw [heq] at hgapless
  rw [symbolOf, ← Array.getElem?_toList, heq, List.takeWhile_cons_of_pos (by simpa using hle),
    List.length_cons, Nat.add_sub_cancel]
  exact hgapless.exists_getElem? hle hlt

theorem IsTable.symbolOf_lt {first limit n : Nat} {table : Array (Nat × Nat)}
    (h : IsTable first limit table) (hle : first ≤ n) (hlt : n < limit) :
    symbolOf table n < table.size := by
  obtain ⟨base, extra, hentry, -, -⟩ := h.exists_getElem? hle hlt
  exact (Array.getElem?_eq_some_iff.1 hentry).1

/-- **A value is read from its symbol and its extra bits.** -/
theorem IsTable.reads_tableValue {first limit n : Nat} {table : Array (Nat × Nat)}
    (h : IsTable first limit table) (hle : first ≤ n) (hlt : n < limit) :
    Reads (Reader.tableValue table (symbolOf table n)) (extraBits table n) n := by
  obtain ⟨base, extra, hentry, hbase, hextra⟩ := h.exists_getElem? hle hlt
  have hlow : n - base < 2 ^ extra := by omega
  have hread : Reads (Reader.tableValue table (symbolOf table n)) (numberBits extra (n - base))
      (base + (n - base)) := Reads.bind_lift hentry ((Reads.number hlow).bind_pure _)
  rw [Nat.add_sub_cancel' hbase] at hread
  rw [extraBits, Array.getD_eq_getD_getElem?, hentry]
  exact hread

/-! ### Pieces in codes -/

namespace Piece

/-- All symbols of the piece have codes. -/
structure IsCoded (literals distances : List Nat) (piece : Piece) : Prop where
  symbol_ne : literals.getD piece.symbol 0 ≠ 0
  distance_ne : ∀ symbol, piece.distanceSymbol? = some symbol → distances.getD symbol 0 ≠ 0

theorem symbol_lt {piece : Piece} (h : piece.IsInRange) : piece.symbol < 286 := by
  cases piece with
  | literal b => exact b.toNat_lt.trans (by decide)
  | copy length distance =>
    exact Nat.add_lt_add_left (isTable_lengthTable.symbolOf_lt h.1.1 h.1.2) 257

theorem distanceSymbol_lt {piece : Piece} (h : piece.IsInRange) {symbol : Nat}
    (hsymbol : piece.distanceSymbol? = some symbol) : symbol < 30 := by
  cases piece with
  | literal b => cases hsymbol
  | copy length distance =>
    rw [← Option.some.inj hsymbol]
    exact isTable_distanceTable.symbolOf_lt h.2.1 h.2.2

end Piece

section

variable {literals distances : List Nat} {pieces : List Piece}

theorem bodyBits_cons (piece : Piece) : bodyBits literals distances (piece :: pieces) =
    piece.bits (codesOf literals) (codesOf distances) ++ bodyBits literals distances pieces := by
  rw [bodyBits, List.flatMap_cons, List.append_assoc]
  rfl

variable (hend : literals.getD 256 0 ≠ 0)
  (hcoded : ∀ piece ∈ pieces, piece.IsCoded literals distances)
include hend hcoded

/-- Every piece takes a bit, and so does the end. -/
theorem length_lt_length_bodyBits :
    pieces.length < (bodyBits literals distances pieces).length := by
  induction pieces with
  | nil => exact length_getD_codesOf_pos hend
  | cons piece pieces ih =>
    obtain ⟨hpiece, hpieces⟩ := List.forall_mem_cons.1 hcoded
    have hpos := length_getD_codesOf_pos hpiece.symbol_ne
    have hrest := ih hpieces
    rw [bodyBits_cons, List.length_cons]
    unfold Piece.bits
    simp only [List.length_append]
    omega

/-- **Pieces are read as the data they describe.** -/
theorem Describes.reads_symbols (hliterals : IsPrefixCode 15 literals)
    (hdistances : IsPrefixCode 15 distances) {data out : Array UInt8}
    (h : Describes data out pieces) {steps : Nat} (hsteps : pieces.length ≤ steps) :
    Reads (Reader.symbols (.ofLengths literals) (.ofLengths distances) (steps + 1) out)
      (bodyBits literals distances pieces) data := by
  induction h generalizing steps with
  | done =>
    rw [Reader.symbols, ← List.append_nil (bodyBits _ _ _)]
    refine (Code.reads_symbol hliterals (Nat.le_refl 15) hend).bind ?_
    rw [if_neg (by decide), if_pos rfl]
    exact .pure data
  | @literal out pieces b rest ih =>
    obtain ⟨hpiece, hpieces⟩ := List.forall_mem_cons.1 hcoded
    obtain ⟨steps, rfl⟩ := Nat.exists_eq_succ_of_ne_zero (Nat.ne_zero_of_lt hsteps)
    have hbits : (Piece.literal b).bits (codesOf literals) (codesOf distances) =
        (codesOf literals).getD (Piece.literal b).symbol [] := List.append_nil _
    rw [Reader.symbols, bodyBits_cons, hbits]
    refine (Code.reads_symbol hliterals (Nat.le_refl 15) hpiece.symbol_ne).bind ?_
    rw [Piece.symbol, if_pos (show b.toNat < 256 from b.toNat_lt), UInt8.ofNat_toNat]
    exact ih hpieces (Nat.le_of_succ_le_succ hsteps)
  | @copy out pieces length distance isInRange distance_le rest ih =>
    obtain ⟨hpiece, hpieces⟩ := List.forall_mem_cons.1 hcoded
    obtain ⟨hlength, hdistance⟩ := isInRange
    obtain ⟨steps, rfl⟩ := Nat.exists_eq_succ_of_ne_zero (Nat.ne_zero_of_lt hsteps)
    rw [Reader.symbols, bodyBits_cons, Piece.bits]
    simp only [List.append_assoc]
    refine (Code.reads_symbol hliterals (Nat.le_refl 15) hpiece.symbol_ne).bind ?_
    rw [Piece.symbol, if_neg (by omega), if_neg (by omega), Nat.add_sub_cancel_left]
    refine (isTable_lengthTable.reads_tableValue hlength.1 hlength.2).bind ?_
    refine (Code.reads_symbol hdistances (Nat.le_refl 15) (hpiece.distance_ne _ rfl)).bind ?_
    refine (isTable_distanceTable.reads_tableValue hdistance.1 hdistance.2).bind ?_
    rw [if_pos distance_le]
    exact ih hpieces (Nat.le_of_succ_le_succ hsteps)

end

end Gelf.Deflate
