import Gelf.Proofs.Json.Grammar
import Gelf.Proofs.Json.RoundTrip

/-!
# Scanning the leaves of the grammar

The scans of blanks, strings and numbers take off a text what the grammar derives, however it is
spelled. A number ends where its digits do, so what stands behind it matters: another value cannot
follow without something that separates the two.
-/

namespace Gelf.Json

namespace Grammar

/-! ### Blanks -/

/-- What stands behind a value is nothing, a blank or the punctuation of what is around it. -/
def Separates (rest : List UInt8) : Prop :=
  ∀ b ∈ rest.head?, isSpace b = true ∨ b = octet ',' ∨ b = octet '}' ∨ b = octet ']'

theorem separates_nil : Separates [] := by
  intro b hb
  cases hb

theorem Separates.ne {rest : List UInt8} (h : Separates rest) {b c : UInt8} (hb : b ∈ rest.head?)
    (hc : isSpace c = false ∧ c ≠ octet ',' ∧ c ≠ octet '}' ∧ c ≠ octet ']') : b ≠ c := by
  rintro rfl
  rcases h b hb with hspace | hcomma | hbrace | hbracket
  · rw [hc.1] at hspace
    cases hspace
  · exact hc.2.1 hcomma
  · exact hc.2.2.1 hbrace
  · exact hc.2.2.2 hbracket

theorem Separates.noDigit {rest : List UInt8} (h : Separates rest) : NoDigit rest := by
  intro b hb
  cases hdigit : isDigit b with
  | false => rfl
  | true =>
    rcases h b hb with hspace | rfl | rfl | rfl
    · rw [not_isSpace_of_isDigit hdigit] at hspace
      cases hspace
    all_goals cases hdigit

theorem octets_blank {c : Char} (hc : c = ' ' ∨ c = '\t' ∨ c = '\n' ∨ c = '\r') (s : List Char) :
    octets (c :: s) = octet c :: octets s ∧ isSpace (octet c) = true := by
  rcases hc with rfl | rfl | rfl | rfl <;> exact ⟨octets_cons_of_le s (by decide), by decide⟩

theorem Skips.skipSpace_eq {s t : List Char} (h : Skips s t) :
    skipSpace (octets s) = skipSpace (octets t) := by
  induction h with
  | none => rfl
  | blank hc _ ih =>
    obtain ⟨hoctets, hspace⟩ := octets_blank hc _
    rw [hoctets, skipSpace, List.dropWhile_cons_of_pos hspace]
    exact ih

theorem Skips.separates {s t : List Char} (h : Skips s t) (ht : Separates (octets t)) :
    Separates (octets s) := by
  cases h with
  | none => exact ht
  | blank hc _ =>
    obtain ⟨hoctets, hspace⟩ := octets_blank hc _
    rw [hoctets]
    rintro b ⟨⟩
    exact .inl hspace

/-- Blanks in front of punctuation are skipped up to it. -/
theorem Skips.skipSpace_punctuation {s t : List Char} {c : Char} (h : Skips s (c :: t))
    (hc : c.toNat ≤ 0x7f) (hspace : isSpace (octet c) = false) :
    skipSpace (octets s) = octet c :: octets t := by
  rw [h.skipSpace_eq, octets_cons_of_le t hc, skipSpace_cons hspace]

theorem Skips.separates_punctuation {s t : List Char} {c : Char} (h : Skips s (c :: t))
    (hc : c = ',' ∨ c = '}' ∨ c = ']') : Separates (octets s) := by
  refine h.separates ?_
  rcases hc with rfl | rfl | rfl <;>
    · rw [octets_cons_of_le _ (by decide)]
      rintro b ⟨⟩
      simp

/-! ### Strings -/

theorem le_of_hexDigit? {c : Char} {n : Nat} (h : Text.hexDigit? c = some n) : c.toNat ≤ 0x7f := by
  unfold Text.hexDigit? at h
  split at h
  · rename_i hdigit
    have hc := toNat_mem_of_isDigit hdigit
    omega
  · split at h
    · rename_i hlower
      have hf : c.toNat ≤ 'f'.toNat := hlower.2
      exact hf.trans (by decide)
    · split at h
      · rename_i hupper
        have hf : c.toNat ≤ 'F'.toNat := hupper.2
        exact hf.trans (by decide)
      · cases h

theorem ofUInt8_octet {c : Char} (h : c.toNat ≤ 0x7f) : Char.ofUInt8 (octet c) = c := by
  have hval : (octet c).toUInt32.toNat = c.toNat := by
    rw [UInt8.toNat_toUInt32, toNat_octet h]
  exact Char.ext (UInt32.toNat_inj.1 hval)

theorem hexDigit?_octet {c : Char} {n : Nat} (h : Text.hexDigit? c = some n) :
    hexDigit? (octet c) = some n := by
  rw [hexDigit?, ofUInt8_octet (le_of_hexDigit? h), h]

theorem hexUnit_octets {a b c d : Char} {n : Nat} (hn : unit? a b c d = some n) (s : List Char) :
    hexUnit (octets (a :: b :: c :: d :: s)) = .ok (n, octets s) := by
  unfold unit? at hn
  split at hn
  · rename_i ha hb hc hd
    cases hn
    rw [octets_cons_of_le _ (le_of_hexDigit? ha), octets_cons_of_le _ (le_of_hexDigit? hb),
      octets_cons_of_le _ (le_of_hexDigit? hc), octets_cons_of_le _ (le_of_hexDigit? hd), hexUnit,
      hexDigit?_octet ha, hexDigit?_octet hb, hexDigit?_octet hc, hexDigit?_octet hd]
  · cases hn

theorem escape_octets {e c : Char} (he : (e, c) ∈ escapes) (s : List Char) :
    escape (octets (e :: s)) = .ok (c, octets s) := by
  simp only [escapes, List.mem_cons, Prod.mk.injEq, List.not_mem_nil, or_false] at he
  rcases he with ⟨rfl, rfl⟩ | ⟨rfl, rfl⟩ | ⟨rfl, rfl⟩ | ⟨rfl, rfl⟩ | ⟨rfl, rfl⟩ | ⟨rfl, rfl⟩ |
    ⟨rfl, rfl⟩ | ⟨rfl, rfl⟩ <;>
    · rw [octets_cons_of_le s (by decide)]
      rfl

theorem escape_unicode (s : List Char) :
    escape (octets ('u' :: s)) = unicodeEscape (octets s) := by
  rw [octets_cons_of_le s (by decide)]
  rfl

theorem unicodeEscape_unit {a b c d : Char} {n : Nat} (hn : unit? a b c d = some n)
    (hscalar : n < 0xd800 ∨ 0xdfff < n) (s : List Char) :
    unicodeEscape (octets (a :: b :: c :: d :: s)) = .ok (Char.ofNat n, octets s) := by
  rw [unicodeEscape, hexUnit_octets hn]
  dsimp only
  rw [if_neg (by omega), if_neg (by omega)]

theorem lowSurrogate_octets {a b c d : Char} {low : Nat} (high : Nat)
    (hlow : unit? a b c d = some (0xdc00 + low)) (hlow' : low < 0x400) (s : List Char) :
    lowSurrogate (0xd800 + high) (octets ('\\' :: 'u' :: a :: b :: c :: d :: s)) =
      .ok (Char.ofNat (0x10000 + high * 0x400 + low), octets s) := by
  have hcode : (0xd800 + high - 0xd800) * 0x400 + (0xdc00 + low - 0xdc00) + 0x10000 =
      0x10000 + high * 0x400 + low := by omega
  rw [octets_cons_of_le _ (by decide), octets_cons_of_le _ (by decide), lowSurrogate,
    if_neg (by decide), if_neg (by decide), hexUnit_octets hlow]
  dsimp only
  rw [if_pos (by omega), hcode]

theorem unicodeEscape_surrogates {a b c d a' b' c' d' : Char} {high low : Nat}
    (hhigh : unit? a b c d = some (0xd800 + high)) (hlow : unit? a' b' c' d' = some (0xdc00 + low))
    (hhigh' : high < 0x400) (hlow' : low < 0x400) (s : List Char) :
    unicodeEscape (octets (a :: b :: c :: d :: '\\' :: 'u' :: a' :: b' :: c' :: d' :: s)) =
      .ok (Char.ofNat (0x10000 + high * 0x400 + low), octets s) := by
  rw [unicodeEscape, hexUnit_octets hhigh]
  dsimp only
  rw [if_neg (by omega), if_pos (by omega), lowSurrogate_octets high hlow hlow']

theorem stringFrom_escape {c : Char} {s t : List Char} (h : escape (octets s) = .ok (c, octets t))
    (taken : List UInt8) :
    stringFrom taken (octets ('\\' :: s)) =
      stringFrom ((String.utf8EncodeChar c).reverse ++ taken) (octets t) := by
  rw [octets_cons_of_le s (by decide)]
  exact stringFrom_backslash h taken

theorem Quoted.stringFrom_eq {s cs rest : List Char} (h : Quoted s cs rest) (taken : List UInt8) :
    stringFrom taken (octets s) =
      (textOfTaken ((octets cs).reverse ++ taken)).map fun text => (text, octets rest) := by
  induction h generalizing taken with
  | close =>
    rw [octets_cons_of_le _ (by decide), stringFrom, if_pos rfl]
    rfl
  | plain hcontrol hquote hbackslash _ ih =>
    rw [octets_cons, stringFrom_append_of_isPlain (fun b hb =>
      isPlain_of_mem_utf8EncodeChar hcontrol hquote hbackslash hb), ih, octets_cons,
      List.reverse_append, List.append_assoc]
  | escape he _ ih =>
    rw [stringFrom_escape (escape_octets he _), ih, octets_cons, List.reverse_append,
      List.append_assoc]
  | @unit _ _ _ _ _ s _ _ hn hscalar _ ih =>
    have hescape := (escape_unicode _).trans (unicodeEscape_unit hn hscalar s)
    rw [stringFrom_escape hescape, ih, octets_cons, List.reverse_append, List.append_assoc]
  | @surrogates _ _ _ _ _ _ _ _ _ _ s _ _ hhigh hlow hhigh' hlow' _ ih =>
    have hescape := (escape_unicode _).trans
      (unicodeEscape_surrogates hhigh hlow hhigh' hlow' s)
    rw [stringFrom_escape hescape, ih, octets_cons, List.reverse_append, List.append_assoc]

/-- **Strings.** A string is read as its characters, whichever of them are escaped. -/
theorem Quoted.string_eq {s cs rest : List Char} (h : Quoted s cs rest) :
    string (octets s) = .ok (String.ofList cs, octets rest) := by
  rw [string, h.stringFrom_eq, textOfTaken, List.append_nil, List.reverse_reverse, ← utf8_ofList cs,
    Text.ofUtf8?_utf8]
  rfl

/-! ### Numbers -/

theorem Whole.wellFormed {ds : List Char} (h : Whole ds) :
    (Numeral.mk ds none none).WellFormed where
  whole_ne_nil := by
    cases h with
    | zero => exact List.cons_ne_nil _ _
    | digits hds _ => exact hds.ne_nil
  whole_digits := by
    cases h with
    | zero => exact allDigits_replicate 1
    | digits hds _ => exact hds.digits
  zero hhead := by
    cases h with
    | zero => rfl
    | digits _ hzero => exact absurd hhead hzero
  fraction_ne_nil _ hds := by cases hds
  fraction_digits _ hc := by cases hc

theorem Digits.someDigits_eq {ds : List Char} (h : Digits ds) {rest : List UInt8}
    (hrest : NoDigit rest) : someDigits (octets ds ++ rest) = .ok (octets ds, rest) :=
  Numeral.someDigits_octets h.ne_nil h.digits hrest

theorem Exponent.noDigit {cs : List Char} (h : Exponent cs) {rest : List UInt8}
    (hrest : Separates rest) :
    NoDigit (octets cs ++ rest) ∧ ∀ b ∈ (octets cs ++ rest).head?, b ≠ octet '.' := by
  cases h with
  | none => exact ⟨hrest.noDigit, fun b hb => hrest.ne hb (by decide)⟩
  | some he _ _ =>
    rcases he with rfl | rfl <;>
      · rw [octets_cons_of_le _ (by decide)]
        constructor <;>
          · rintro b ⟨⟩
            decide

theorem Fraction.noDigit {cs : List Char} (h : Fraction cs) {rest : List UInt8}
    (hrest : NoDigit rest) : NoDigit (octets cs ++ rest) := by
  cases h with
  | none => exact hrest
  | some _ =>
    rw [octets_cons_of_le _ (by decide)]
    rintro b ⟨⟩
    decide

theorem Fraction.exists_fractionDigits {cs : List Char} (h : Fraction cs) :
    ∃ fraction : Option (List UInt8), ∀ rest, NoDigit rest → (∀ b ∈ rest.head?, b ≠ octet '.') →
      fractionDigits (octets cs ++ rest) = .ok (fraction, rest) := by
  cases h with
  | none => exact ⟨.none, fun rest _ hpoint => Numeral.fractionDigits_of_head? hpoint⟩
  | @some ds hds =>
    refine ⟨.some (octets ds), ?_⟩
    intro rest hrest _
    rw [octets_cons_of_le _ (by decide), List.cons_append, fractionDigits, if_pos rfl,
      hds.someDigits_eq hrest]
    rfl

theorem Digits.exists_signedExponent {sign ds : List Char} (h : Digits ds)
    (hsign : sign = [] ∨ sign = ['+'] ∨ sign = ['-']) :
    ∃ e, ∀ rest, NoDigit rest → signedExponent (octets (sign ++ ds) ++ rest) = .ok (e, rest) := by
  rcases hsign with rfl | rfl | rfl
  · refine ⟨digitsValue (octets ds), ?_⟩
    intro rest hrest
    have hdigits := h.someDigits_eq hrest
    obtain ⟨c, cs, rfl⟩ := List.exists_cons_of_ne_nil h.ne_nil
    have hc := h.digits c List.mem_cons_self
    have hle := toNat_mem_of_isDigit hc
    have hdigit := isDigit_octet hc
    rw [octets_cons_of_le cs (by omega), List.cons_append] at hdigits
    rw [List.nil_append, octets_cons_of_le cs (by omega), List.cons_append, signedExponent,
      if_neg (ne_of_isDigit hdigit (by decide)), if_neg (ne_of_isDigit hdigit (by decide)), hdigits]
    rfl
  · refine ⟨digitsValue (octets ds), ?_⟩
    intro rest hrest
    rw [List.cons_append, octets_cons_of_le _ (by decide), List.cons_append, List.nil_append,
      signedExponent, if_pos rfl, h.someDigits_eq hrest]
    rfl
  · refine ⟨-digitsValue (octets ds), ?_⟩
    intro rest hrest
    rw [List.cons_append, octets_cons_of_le _ (by decide), List.cons_append, List.nil_append,
      signedExponent, if_neg (by decide), if_pos rfl, h.someDigits_eq hrest]
    rfl

theorem exponent_of_head? {rest : List UInt8}
    (h : ∀ b ∈ rest.head?, b ≠ octet 'e' ∧ b ≠ octet 'E') :
    Json.exponent rest = .ok (none, rest) := by
  cases rest with
  | nil => rfl
  | cons b rest => exact if_neg (not_or.2 (h b rfl))

theorem Exponent.exists_exponent {cs : List Char} (h : Exponent cs) :
    ∃ e : Option Int, ∀ rest, Separates rest →
      Json.exponent (octets cs ++ rest) = .ok (e, rest) := by
  cases h with
  | none =>
    refine ⟨.none, ?_⟩
    intro rest hrest
    exact exponent_of_head? fun b hb => ⟨hrest.ne hb (by decide), hrest.ne hb (by decide)⟩
  | some he hsign hds =>
    obtain ⟨e, hexponent⟩ := hds.exists_signedExponent hsign
    refine ⟨.some e, ?_⟩
    intro rest hrest
    have hscan := hexponent rest hrest.noDigit
    rcases he with rfl | rfl <;>
      · rw [octets_cons_of_le _ (by decide), List.cons_append, Json.exponent, if_pos (by decide),
          hscan]
        rfl

/-- **Numbers.** A literal is read the same way whatever separates it from the next value. Its size
decides whether it is a number at all. -/
theorem Literal.exists_number {literal : List Char} (h : Literal literal) :
    ∃ negative c cs, literal = sign negative ++ c :: cs ∧ c.isDigit = true ∧
      ∃ x : Except ReadError Number, ∀ rest, Separates rest →
        number negative (octets (c :: cs) ++ rest) = x.map fun n => (n, rest) := by
  cases h with
  | @mk s whole fraction exponent hsign hwhole hfraction hexponent =>
    obtain ⟨negative, rfl⟩ : ∃ negative, s = sign negative := by
      rcases hsign with rfl | rfl
      · exact ⟨false, rfl⟩
      · exact ⟨true, rfl⟩
    have hwell := hwhole.wellFormed
    obtain ⟨ds, hfractionDigits⟩ := hfraction.exists_fractionDigits
    obtain ⟨e, hexponentDigits⟩ := hexponent.exists_exponent
    obtain ⟨c, cs, hcs⟩ : ∃ c cs, whole = c :: cs := List.exists_cons_of_ne_nil hwell.whole_ne_nil
    have hc : c.isDigit = true := hwell.whole_digits c (by rw [hcs]; exact List.mem_cons_self)
    refine ⟨negative, c, cs ++ (fraction ++ exponent), by rw [hcs]; rfl, hc,
      assemble negative (octets whole) ds e, ?_⟩
    intro rest hrest
    obtain ⟨hnext, hpoint⟩ := hexponent.noDigit hrest
    have hscan := Numeral.wholeDigits_octets hwell (hfraction.noDigit hnext)
    rw [← List.cons_append, ← hcs, octets_append, octets_append, List.append_assoc,
      List.append_assoc, number, hscan]
    simp only [bind, Except.bind, hfractionDigits _ hnext hpoint, hexponentDigits rest hrest]
    cases assemble negative (octets whole) ds e <;> rfl

end Grammar

end Gelf.Json
