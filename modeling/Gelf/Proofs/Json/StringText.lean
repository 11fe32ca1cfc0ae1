import Gelf.Json.Printer
import Gelf.Json.Scan
import Mathlib.Tactic.IntervalCases

/-!
# Reading strings back

A printed string is read back as it was, whatever its characters are. The scan of a string takes
octets one after another, so the proof follows the characters: those that are escaped come back
through their escape, and of the others no octet can end the string.
-/

namespace Gelf.Json

/-- The octets of a text that is still a list of characters. -/
def octets (cs : List Char) : List UInt8 := cs.flatMap String.utf8EncodeChar

@[simp]
theorem octets_nil : octets [] = [] := rfl

theorem octets_cons (c : Char) (cs : List Char) :
    octets (c :: cs) = String.utf8EncodeChar c ++ octets cs := List.flatMap_cons

@[simp]
theorem octets_append (cs ds : List Char) : octets (cs ++ ds) = octets cs ++ octets ds :=
  List.flatMap_append

theorem utf8_ofList (cs : List Char) : Text.utf8 (String.ofList cs) = octets cs :=
  Text.utf8_ofList cs

theorem utf8_eq_octets (text : String) : Text.utf8 text = octets text.toList := by
  rw [← utf8_ofList, String.ofList_toList]

theorem utf8EncodeChar_of_le {c : Char} (h : c.toNat ≤ 0x7f) :
    String.utf8EncodeChar c = [octet c] := if_pos h

theorem octets_cons_of_le {c : Char} (cs : List Char) (h : c.toNat ≤ 0x7f) :
    octets (c :: cs) = octet c :: octets cs := by
  rw [octets_cons, utf8EncodeChar_of_le h]
  rfl

theorem le_of_mem_utf8EncodeChar {c : Char} (h : 0x7f < c.toNat) {b : UInt8}
    (hb : b ∈ String.utf8EncodeChar c) : 0x80 ≤ b.toNat := by
  have hbyte {n : Nat} (hlow : 0x80 ≤ n) (hhigh : n < 256) : 0x80 ≤ (UInt8.ofNat n).toNat := by
    rw [UInt8.toNat_ofNat_of_lt' hhigh]
    exact hlow
  unfold String.utf8EncodeChar at hb
  dsimp only at hb
  rw [if_neg (show ¬ c.val.toNat ≤ 0x7f from Nat.not_le.2 h)] at hb
  split at hb
  · simp only [List.mem_cons, List.not_mem_nil, or_false] at hb
    rcases hb with rfl | rfl <;> exact hbyte (by omega) (by omega)
  · split at hb
    · simp only [List.mem_cons, List.not_mem_nil, or_false] at hb
      rcases hb with rfl | rfl | rfl <;> exact hbyte (by omega) (by omega)
    · simp only [List.mem_cons, List.not_mem_nil, or_false] at hb
      rcases hb with rfl | rfl | rfl | rfl <;> exact hbyte (by omega) (by omega)

/-! ### Characters of a string -/

/-- An octet that stands for itself in a string. -/
def IsPlain (b : UInt8) : Prop := 0x20 ≤ b.toNat ∧ b ≠ octet '"' ∧ b ≠ octet '\\'

theorem stringFrom_cons_of_isPlain {b : UInt8} (h : IsPlain b) (taken s : List UInt8) :
    stringFrom taken (b :: s) = stringFrom (b :: taken) s := by
  have hcontrol : ¬ b < 0x20 := by
    intro hlt
    have := UInt8.lt_iff_toNat_lt.1 hlt
    exact absurd h.1 (Nat.not_le.2 this)
  rw [stringFrom, if_neg h.2.1, if_neg h.2.2, if_neg hcontrol]

theorem stringFrom_append_of_isPlain {bs : List UInt8} (h : ∀ b ∈ bs, IsPlain b)
    (taken s : List UInt8) :
    stringFrom taken (bs ++ s) = stringFrom (bs.reverse ++ taken) s := by
  induction bs generalizing taken with
  | nil => rfl
  | cons b bs ih =>
    rw [List.cons_append, stringFrom_cons_of_isPlain (h b List.mem_cons_self),
      ih fun b' hb' => h b' (List.mem_cons_of_mem b hb'), List.reverse_cons, List.append_assoc]
    rfl

theorem stringFrom_backslash {c : Char} {s r : List UInt8} (h : escape s = .ok (c, r))
    (taken : List UInt8) :
    stringFrom taken (octet '\\' :: s) =
      stringFrom ((String.utf8EncodeChar c).reverse ++ taken) r := by
  rw [stringFrom, if_neg (by decide), if_pos rfl]
  split
  · rename_i e he
    rw [h] at he
    cases he
  · rename_i c' r' he
    rw [h] at he
    cases he
    rfl

theorem toNat_octet {c : Char} (h : c.toNat ≤ 0x7f) : (octet c).toNat = c.toNat :=
  UInt8.toNat_ofNat_of_lt' (Nat.lt_of_le_of_lt h (by decide))

theorem octet_inj {c d : Char} (hc : c.toNat ≤ 0x7f) (hd : d.toNat ≤ 0x7f) :
    octet c = octet d ↔ c = d := by
  rw [← UInt8.toNat_inj, toNat_octet hc, toNat_octet hd]
  exact Char.toNat_inj

theorem isPlain_of_mem_utf8EncodeChar {c : Char} (hc : 0x20 ≤ c.toNat) (hquote : c ≠ '"')
    (hbackslash : c ≠ '\\') {b : UInt8} (hb : b ∈ String.utf8EncodeChar c) : IsPlain b := by
  by_cases hascii : c.toNat ≤ 0x7f
  · rw [utf8EncodeChar_of_le hascii, List.mem_singleton] at hb
    subst hb
    refine ⟨(toNat_octet hascii).symm ▸ hc, ?_, ?_⟩
    · intro h
      exact hquote ((octet_inj hascii (by decide)).1 h)
    · intro h
      exact hbackslash ((octet_inj hascii (by decide)).1 h)
  · have hlarge := le_of_mem_utf8EncodeChar (Nat.not_le.1 hascii) hb
    refine ⟨by omega, ?_, ?_⟩ <;>
      · rintro rfl
        exact absurd hlarge (by decide)

theorem escape_of_control {c : Char} (hc : c.toNat < 0x20) (s : List UInt8) :
    ∃ t, octets (escapeChar c) ++ s = octet '\\' :: t ∧ escape t = .ok (c, s) := by
  obtain ⟨n, hn, rfl⟩ : ∃ n < 0x20, c = Char.ofNat n := ⟨c.toNat, hc, (Char.ofNat_toNat c).symm⟩
  clear hc
  interval_cases n <;> exact ⟨_, rfl, rfl⟩

/-- A character is read back, whether it was escaped or not. -/
theorem stringFrom_escapeChar (c : Char) (taken s : List UInt8) :
    stringFrom taken (octets (escapeChar c) ++ s) =
      stringFrom ((String.utf8EncodeChar c).reverse ++ taken) s := by
  by_cases hquote : c = '"'
  · subst hquote
    exact stringFrom_backslash (s := octet '"' :: s) rfl taken
  by_cases hbackslash : c = '\\'
  · subst hbackslash
    exact stringFrom_backslash (s := octet '\\' :: s) rfl taken
  by_cases hcontrol : c.toNat < 0x20
  · obtain ⟨t, heq, ht⟩ := escape_of_control hcontrol s
    rw [heq]
    exact stringFrom_backslash ht taken
  · have hsingle : octets (escapeChar c) = String.utf8EncodeChar c := by
      rw [escapeChar, if_neg hquote, if_neg hbackslash, if_pos (Nat.not_lt.1 hcontrol),
        octets_cons, octets_nil, List.append_nil]
    rw [hsingle]
    exact stringFrom_append_of_isPlain (fun b hb =>
      isPlain_of_mem_utf8EncodeChar (Nat.not_lt.1 hcontrol) hquote hbackslash hb) taken s

theorem stringFrom_flatMap_escapeChar (cs : List Char) (taken s : List UInt8) :
    stringFrom taken (octets (cs.flatMap escapeChar) ++ s) =
      stringFrom ((octets cs).reverse ++ taken) s := by
  induction cs generalizing taken with
  | nil => rfl
  | cons c cs ih =>
    rw [List.flatMap_cons, octets_append, List.append_assoc, stringFrom_escapeChar, ih, octets_cons,
      List.reverse_append, List.append_assoc]

/-- **Strings.** What is printed of a string behind its opening quote is read back as the string. -/
theorem string_stringChars (text : String) (s : List UInt8) :
    ∃ t, octets (stringChars text) ++ s = octet '"' :: t ∧ string t = .ok (text, s) := by
  refine ⟨octets (text.toList.flatMap escapeChar) ++ octet '"' :: s, ?_, ?_⟩
  · simp only [stringChars, octets_cons_of_le _ (show '"'.toNat ≤ 0x7f by decide), octets_append,
      octets_nil, List.cons_append, List.append_assoc, List.nil_append]
  · rw [string, stringFrom_flatMap_escapeChar, stringFrom, if_pos rfl, textOfTaken,
      List.append_nil, List.reverse_reverse, ← utf8_ofList, String.ofList_toList,
      Text.ofUtf8?_utf8]
    rfl

end Gelf.Json
