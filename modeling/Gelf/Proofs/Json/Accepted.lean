import Gelf.Proofs.Json.Bounds
import Gelf.Proofs.Json.Meaning

/-!
# What readers take

A reader takes nothing but texts of the grammar. The octets of a string are looked at as UTF-8 only
when the string is complete and its escapes are characters already, so the scan of a string is first
taken apart into octets that stand for themselves and escapes. An escape is a whole character, hence
what is left of the others are whole characters too.
-/

namespace Gelf.Json

open Grammar

theorem octets_cons_append {c : Char} {cs : List Char} {r : List UInt8} (hc : c.toNat ≤ 0x7f) :
    octet c :: (octets cs ++ r) = octets (c :: cs) ++ r := by
  rw [octets_cons_of_le cs hc]
  rfl

/-! ### Blanks -/

theorem exists_blank {b : UInt8} (h : isSpace b = true) :
    ∃ c, (c = ' ' ∨ c = '\t' ∨ c = '\n' ∨ c = '\r') ∧ b = octet c := by
  simp only [isSpace, Bool.or_eq_true, decide_eq_true_eq] at h
  rcases h with ((rfl | rfl) | rfl) | rfl
  · exact ⟨' ', .inl rfl, rfl⟩
  · exact ⟨'\n', .inr (.inr (.inl rfl)), rfl⟩
  · exact ⟨'\t', .inr (.inl rfl), rfl⟩
  · exact ⟨'\r', .inr (.inr (.inr rfl)), rfl⟩

theorem exists_skips (s : List UInt8) :
    ∃ cs, s = octets cs ++ skipSpace s ∧ ∀ rest, Skips (cs ++ rest) rest := by
  induction s with
  | nil => exact ⟨[], rfl, fun _ => .none⟩
  | cons b s ih =>
    cases hspace : isSpace b with
    | false => exact ⟨[], (skipSpace_cons hspace s).symm, fun _ => .none⟩
    | true =>
      obtain ⟨cs, hs, hskips⟩ := ih
      obtain ⟨c, hc, rfl⟩ := exists_blank hspace
      have hskip : skipSpace (octet c :: s) = skipSpace s := List.dropWhile_cons_of_pos hspace
      refine ⟨c :: cs, ?_, fun rest => .blank hc (hskips rest)⟩
      rw [hskip, (octets_blank hc cs).1]
      exact congrArg (octet c :: ·) hs

theorem exists_skips_cons {s r : List UInt8} {c : Char} (hc : c.toNat ≤ 0x7f)
    (h : skipSpace s = octet c :: r) :
    ∃ cs, s = octets cs ++ r ∧ ∀ rest, Skips (cs ++ rest) (c :: rest) := by
  obtain ⟨cs, hs, hskips⟩ := exists_skips s
  refine ⟨cs ++ [c], ?_, fun rest => ?_⟩
  · rw [octets_append, octets_cons_of_le [] hc, octets_nil, List.append_assoc]
    rwa [h] at hs
  · rw [List.append_assoc]
    exact hskips (c :: rest)

/-! ### Escapes -/

theorem octet_ofUInt8 (b : UInt8) : octet (Char.ofUInt8 b) = b := by
  rw [← UInt8.toNat_inj]
  show (UInt8.ofNat b.toNat).toNat = b.toNat
  rw [UInt8.ofNat_toNat]

theorem exists_unit? {s r : List UInt8} {n : Nat} (h : hexUnit s = .ok (n, r)) :
    ∃ a b c d, s = octets [a, b, c, d] ++ r ∧ unit? a b c d = some n := by
  unfold hexUnit at h
  split at h
  · rename_i a b c d r
    split at h
    · rename_i ha hb hc hd
      cases h
      refine ⟨.ofUInt8 a, .ofUInt8 b, .ofUInt8 c, .ofUInt8 d, ?_, ?_⟩
      · rw [octets_cons_of_le _ (le_of_hexDigit? ha), octets_cons_of_le _ (le_of_hexDigit? hb),
          octets_cons_of_le _ (le_of_hexDigit? hc), octets_cons_of_le _ (le_of_hexDigit? hd)]
        simp only [octet_ofUInt8, octets_nil, List.cons_append, List.nil_append]
      · rw [hexDigit?] at ha hb hc hd
        rw [unit?, ha, hb, hc, hd]
    · cases h
  · cases h

/-- The characters that stand behind a backslash for another one. -/
def Escaped (es : List Char) (c : Char) : Prop :=
  ∀ {s cs rest}, Quoted s cs rest → Quoted ('\\' :: (es ++ s)) (c :: cs) rest

theorem lowSurrogate_eq_ok {high : Nat} {c : Char} {s r : List UInt8}
    (h : lowSurrogate high s = .ok (c, r)) :
    ∃ t low, s = octet '\\' :: octet 'u' :: t ∧ hexUnit t = .ok (low, r) ∧
      (0xdc00 ≤ low ∧ low ≤ 0xdfff) ∧
      c = Char.ofNat ((high - 0xd800) * 0x400 + (low - 0xdc00) + 0x10000) := by
  unfold lowSurrogate at h
  split at h
  · cases h
  rename_i b s
  split at h
  · cases h
  rename_i hbackslash
  split at h
  · cases h
  rename_i b' t
  split at h
  · cases h
  rename_i hu
  split at h
  · cases h
  rename_i low r' hlow
  split at h
  · rename_i hrange
    simp only [Except.ok.injEq, Prod.mk.injEq] at h
    rw [not_ne_iff] at hbackslash hu
    exact ⟨t, low, by rw [hbackslash, hu], h.2 ▸ hlow, hrange, h.1.symm⟩
  · cases h

theorem exists_escaped_unicode {c : Char} {s r : List UInt8} (h : unicodeEscape s = .ok (c, r)) :
    ∃ es, s = octets es ++ r ∧ Escaped ('u' :: es) c := by
  unfold unicodeEscape at h
  split at h
  · cases h
  rename_i unit t hunit
  obtain ⟨a₁, a₂, a₃, a₄, rfl, hfirst⟩ := exists_unit? hunit
  split at h
  · cases h
  rename_i hlow
  split at h
  · rename_i hhigh
    obtain ⟨t, low, rfl, hunit', hrange, hc⟩ := lowSurrogate_eq_ok h
    obtain ⟨b₁, b₂, b₃, b₄, rfl, hsecond⟩ := exists_unit? hunit'
    refine ⟨[a₁, a₂, a₃, a₄] ++ ['\\', 'u', b₁, b₂, b₃, b₄], ?_, fun hs => ?_⟩
    · have htext : octets ['\\', 'u', b₁, b₂, b₃, b₄] ++ r =
          octet '\\' :: octet 'u' :: (octets [b₁, b₂, b₃, b₄] ++ r) := by
        rw [octets_cons_of_le _ (by decide), octets_cons_of_le _ (by decide)]
        rfl
      rw [octets_append, List.append_assoc, htext]
    · have hfirst' : unit? a₁ a₂ a₃ a₄ = some (0xd800 + (unit - 0xd800)) := by
        rw [hfirst, Nat.add_sub_cancel' hhigh.1]
      have hsecond' : unit? b₁ b₂ b₃ b₄ = some (0xdc00 + (low - 0xdc00)) := by
        rw [hsecond, Nat.add_sub_cancel' hrange.1]
      have hquoted := Quoted.surrogates hfirst' hsecond' (by omega) (by omega) hs
      rwa [Nat.add_assoc, Nat.add_comm 0x10000, ← hc] at hquoted
  · rename_i hhigh
    simp only [Except.ok.injEq, Prod.mk.injEq] at h
    obtain ⟨rfl, rfl⟩ := h
    exact ⟨[a₁, a₂, a₃, a₄], rfl, fun hs => .unit hfirst (by omega) hs⟩

theorem escape_eq_ok {b : UInt8} {c : Char} {s r : List UInt8} (h : escape (b :: s) = .ok (c, r)) :
    (∃ e, (e, c) ∈ escapes ∧ b = octet e ∧ s = r) ∨
      b = octet 'u' ∧ unicodeEscape s = .ok (c, r) := by
  simp only [escape] at h
  by_cases hquote : b = octet '"'
  · rw [if_pos hquote] at h
    cases h
    exact .inl ⟨'"', by decide, hquote, rfl⟩
  rw [if_neg hquote] at h
  by_cases hbackslash : b = octet '\\'
  · rw [if_pos hbackslash] at h
    cases h
    exact .inl ⟨'\\', by decide, hbackslash, rfl⟩
  rw [if_neg hbackslash] at h
  by_cases hslash : b = octet '/'
  · rw [if_pos hslash] at h
    cases h
    exact .inl ⟨'/', by decide, hslash, rfl⟩
  rw [if_neg hslash] at h
  by_cases hb : b = octet 'b'
  · rw [if_pos hb] at h
    cases h
    exact .inl ⟨'b', by decide, hb, rfl⟩
  rw [if_neg hb] at h
  by_cases hf : b = octet 'f'
  · rw [if_pos hf] at h
    cases h
    exact .inl ⟨'f', by decide, hf, rfl⟩
  rw [if_neg hf] at h
  by_cases hn : b = octet 'n'
  · rw [if_pos hn] at h
    cases h
    exact .inl ⟨'n', by decide, hn, rfl⟩
  rw [if_neg hn] at h
  by_cases hr : b = octet 'r'
  · rw [if_pos hr] at h
    cases h
    exact .inl ⟨'r', by decide, hr, rfl⟩
  rw [if_neg hr] at h
  by_cases ht : b = octet 't'
  · rw [if_pos ht] at h
    cases h
    exact .inl ⟨'t', by decide, ht, rfl⟩
  rw [if_neg ht] at h
  by_cases hu : b = octet 'u'
  · rw [if_pos hu] at h
    exact .inr ⟨hu, h⟩
  · rw [if_neg hu] at h
    cases h

theorem exists_escaped {c : Char} {s r : List UInt8} (h : escape s = .ok (c, r)) :
    ∃ es, s = octets es ++ r ∧ Escaped es c := by
  cases s with
  | nil => cases h
  | cons b s =>
    rcases escape_eq_ok h with ⟨e, he, rfl, rfl⟩ | ⟨rfl, hunicode⟩
    · have hle : ∀ p ∈ escapes, p.1.toNat ≤ 0x7f := by decide
      exact ⟨[e], @octets_cons_append e [] s (hle _ he), fun hs => .escape he hs⟩
    · obtain ⟨es, rfl, hescaped⟩ := exists_escaped_unicode hunicode
      exact ⟨'u' :: es, octets_cons_append (by decide), hescaped⟩

/-! ### Characters -/

theorem utf8EncodeChar_append_inj {c d : Char} {p q : List UInt8}
    (h : String.utf8EncodeChar c ++ p = String.utf8EncodeChar d ++ q) : c = d ∧ p = q := by
  have hdecode (c : Char) (p : List UInt8) :
      (String.utf8EncodeChar c ++ p).toByteArray.utf8DecodeChar? 0 = some c := by
    rw [List.toByteArray_append]
    exact ByteArray.utf8DecodeChar?_utf8EncodeChar_append
  obtain rfl : c = d := by
    have hc := hdecode c p
    rw [h, hdecode d q] at hc
    exact (Option.some.inj hc).symm
  exact ⟨rfl, List.append_cancel_left h⟩

/-- Of the octets of a character the first one tells that it is the first. -/
theorem exists_utf8EncodeChar_eq_cons (c : Char) :
    ∃ b bs, String.utf8EncodeChar c = b :: bs ∧ b.IsUTF8FirstByte ∧
      ∀ b' ∈ bs, ¬ b'.IsUTF8FirstByte := by
  obtain ⟨b, bs, hbs⟩ := List.exists_cons_of_ne_nil (@String.utf8EncodeChar_ne_nil c)
  have hfirst (i : Nat) (hi : i < (b :: bs).length) : (b :: bs)[i].IsUTF8FirstByte ↔ i = 0 := by
    simp only [← hbs]
    exact UInt8.isUTF8FirstByte_getElem_utf8EncodeChar
  refine ⟨b, bs, hbs, (hfirst 0 (Nat.succ_pos _)).2 rfl, fun b' hb' hfirst' => ?_⟩
  obtain ⟨i, hi, rfl⟩ := List.getElem_of_mem hb'
  exact Nat.succ_ne_zero i ((hfirst (i + 1) (Nat.succ_lt_succ hi)).1 hfirst')

/-! ### Strings -/

/-- The octets that are scanned up to the closing quote, with those they stand for. -/
inductive Scanned : List UInt8 → List UInt8 → List UInt8 → Prop
  | close {rest : List UInt8} : Scanned (octet '"' :: rest) [] rest
  | plain {b : UInt8} {s bs rest : List UInt8} (hb : IsPlain b) (h : Scanned s bs rest) :
    Scanned (b :: s) (b :: bs) rest
  | escape {c : Char} {s t bs rest : List UInt8} (hc : escape s = .ok (c, t))
    (h : Scanned t bs rest) : Scanned (octet '\\' :: s) (String.utf8EncodeChar c ++ bs) rest

theorem exists_scanned {taken s r : List UInt8} {text : String}
    (h : stringFrom taken s = .ok (text, r)) :
    ∃ bs, Scanned s bs r ∧ taken.reverse ++ bs = Text.utf8 text := by
  fun_induction stringFrom taken s with
  | case1 => cases h
  | case2 taken s =>
    unfold textOfTaken at h
    split at h
    · rename_i htext
      cases h
      exact ⟨[], .close, by rw [List.append_nil]; exact Text.eq_utf8_of_ofUtf8? htext⟩
    · cases h
  | case3 => cases h
  | case4 taken s c t hescape _ _ ih =>
    obtain ⟨bs, hbs, htext⟩ := ih h
    refine ⟨_, .escape hescape hbs, ?_⟩
    rwa [List.reverse_append, List.reverse_reverse, List.append_assoc] at htext
  | case5 => cases h
  | case6 taken b s hquote hbackslash hcontrol ih =>
    obtain ⟨bs, hbs, htext⟩ := ih h
    have hle : 0x20 ≤ b.toNat := UInt8.le_iff_toNat_le.1 (UInt8.not_lt.1 hcontrol)
    refine ⟨_, .plain ⟨hle, hquote, hbackslash⟩ hbs, ?_⟩
    rwa [List.reverse_cons, List.append_assoc] at htext

/-- What stands for octets inside a character is not escaped, since an escape begins a character. -/
theorem Scanned.exists_append {bs cs s r : List UInt8} (h : Scanned s (bs ++ cs) r)
    (hbs : ∀ b ∈ bs, ¬ b.IsUTF8FirstByte) : ∃ t, s = bs ++ t ∧ Scanned t cs r := by
  induction bs generalizing s with
  | nil => exact ⟨s, rfl, h⟩
  | cons b bs ih =>
    generalize hall : b :: bs ++ cs = all at h
    cases h with
    | close => cases hall
    | plain hb h =>
      cases hall
      obtain ⟨t, rfl, ht⟩ := ih h fun b' hb' => hbs b' (List.mem_cons_of_mem b hb')
      exact ⟨t, rfl, ht⟩
    | @escape c =>
      obtain ⟨b', bs', hchar, hfirst, -⟩ := exists_utf8EncodeChar_eq_cons c
      rw [hchar, List.cons_append, List.cons_append] at hall
      obtain rfl : b = b' := (List.cons.inj hall).1
      exact absurd hfirst (hbs b List.mem_cons_self)

theorem not_control_of_isPlain {c : Char} {b : UInt8} {bs : List UInt8}
    (hchar : String.utf8EncodeChar c = b :: bs) (hb : IsPlain b) :
    0x20 ≤ c.toNat ∧ c ≠ '"' ∧ c ≠ '\\' := by
  by_cases hascii : c.toNat ≤ 0x7f
  · rw [utf8EncodeChar_of_le hascii] at hchar
    cases hchar
    refine ⟨toNat_octet hascii ▸ hb.1, ?_, ?_⟩
    · rintro rfl
      exact hb.2.1 rfl
    · rintro rfl
      exact hb.2.2 rfl
  · refine ⟨by omega, ?_, ?_⟩ <;>
      · rintro rfl
        exact hascii (by decide)

theorem Scanned.exists_quoted {cs : List Char} {s r : List UInt8} (h : Scanned s (octets cs) r) :
    ∃ ds, s = octets ds ++ r ∧ ∀ rest, Quoted (ds ++ rest) cs rest := by
  induction cs generalizing s with
  | nil =>
    generalize hall : octets [] = all at h
    cases h with
    | close => exact ⟨['"'], rfl, fun _ => .close⟩
    | plain => cases hall
    | @escape c =>
      obtain ⟨b, bs, hchar, -⟩ := exists_utf8EncodeChar_eq_cons c
      rw [hchar] at hall
      cases hall
  | cons c cs ih =>
    obtain ⟨b, bs, hchar, -, hbs⟩ := exists_utf8EncodeChar_eq_cons c
    generalize hall : octets (c :: cs) = all at h
    rw [octets_cons] at hall
    cases h with
    | close =>
      rw [hchar] at hall
      cases hall
    | plain hb h =>
      rw [hchar, List.cons_append] at hall
      cases hall
      obtain ⟨t, rfl, ht⟩ := h.exists_append hbs
      obtain ⟨ds, rfl, hds⟩ := ih ht
      obtain ⟨hcontrol, hquote, hbackslash⟩ := not_control_of_isPlain hchar hb
      refine ⟨c :: ds, ?_, fun rest => .plain hcontrol hquote hbackslash (hds rest)⟩
      rw [octets_cons, hchar, List.append_assoc]
      rfl
    | escape hescape h =>
      obtain ⟨rfl, rfl⟩ := utf8EncodeChar_append_inj hall
      obtain ⟨es, rfl, hes⟩ := exists_escaped hescape
      obtain ⟨ds, rfl, hds⟩ := ih h
      refine ⟨'\\' :: (es ++ ds), ?_, fun rest => ?_⟩
      · rw [octets_cons_of_le _ (by decide), octets_append, List.cons_append, List.append_assoc]
      · rw [List.cons_append, List.append_assoc]
        exact hes (hds rest)

theorem exists_quoted {s r : List UInt8} {text : String} (h : string s = .ok (text, r)) :
    ∃ ds, s = octets ds ++ r ∧ ∀ rest, Quoted (ds ++ rest) text.toList rest := by
  obtain ⟨bs, hbs, htext⟩ := exists_scanned h
  rw [List.reverse_nil, List.nil_append, utf8_eq_octets] at htext
  exact (htext ▸ hbs).exists_quoted

/-! ### Numbers -/

theorem exists_digit {b : UInt8} (h : isDigit b = true) :
    ∃ c : Char, c.isDigit = true ∧ b = octet c := by
  simp only [isDigit, Bool.and_eq_true, decide_eq_true_eq, UInt8.le_iff_toNat_le] at h
  have hall : ∀ n < 58, 48 ≤ n → (Char.ofNat n).isDigit = true ∧ (Char.ofNat n).toNat = n := by
    decide
  obtain ⟨hdigit, hn⟩ := hall b.toNat (Nat.lt_succ_of_le h.2) h.1
  have hle := toNat_mem_of_isDigit hdigit
  refine ⟨_, hdigit, ?_⟩
  rw [← UInt8.toNat_inj, toNat_octet (by omega), hn]

theorem allDigits_cons {c : Char} {ds : List Char} (hc : c.isDigit = true) (hds : AllDigits ds) :
    AllDigits (c :: ds) := by
  rintro d hd
  rcases List.mem_cons.1 hd with rfl | hd
  · exact hc
  · exact hds d hd

theorem exists_allDigits {bs : List UInt8} (h : ∀ b ∈ bs, isDigit b = true) :
    ∃ ds, AllDigits ds ∧ bs = octets ds := by
  induction bs with
  | nil => exact ⟨[], allDigits_replicate 0, rfl⟩
  | cons b bs ih =>
    obtain ⟨c, hc, rfl⟩ := exists_digit (h b List.mem_cons_self)
    obtain ⟨ds, hds, rfl⟩ := ih fun b hb => h b (List.mem_cons_of_mem _ hb)
    have hle := toNat_mem_of_isDigit hc
    exact ⟨c :: ds, allDigits_cons hc hds, (octets_cons_of_le ds (by omega)).symm⟩

theorem exists_takeWhile_eq (s : List UInt8) :
    ∃ ds, AllDigits ds ∧ s.takeWhile isDigit = octets ds ∧
      s = octets ds ++ s.dropWhile isDigit := by
  obtain ⟨ds, hds, heq⟩ := exists_allDigits fun b => List.mem_takeWhile_imp (p := isDigit) (l := s)
  exact ⟨ds, hds, heq, heq ▸ List.takeWhile_append_dropWhile.symm⟩

theorem exists_whole {s bs r : List UInt8} (h : wholeDigits s = .ok (bs, r)) :
    ∃ cs, s = octets cs ++ r ∧ Whole cs := by
  cases s with
  | nil => cases h
  | cons b s =>
    simp only [wholeDigits] at h
    split_ifs at h with hzero hempty hdigit
    · cases h
      exact ⟨['0'], by rw [hzero]; rfl, .zero⟩
    · obtain ⟨c, hc, rfl⟩ := exists_digit hdigit
      obtain ⟨ds, hds, -, hs⟩ := exists_takeWhile_eq s
      have hle := toNat_mem_of_isDigit hc
      simp only [Except.ok.injEq, Prod.mk.injEq] at h
      rw [h.2] at hs
      refine ⟨c :: ds, ?_, .digits ⟨List.cons_ne_nil c ds, allDigits_cons hc hds⟩ ?_⟩
      · rw [← octets_cons_append (by omega)]
        exact congrArg (octet c :: ·) hs
      · rintro ⟨⟩
        exact hzero rfl

theorem exists_digits {s bs r : List UInt8} (h : someDigits s = .ok (bs, r)) :
    ∃ cs, s = octets cs ++ r ∧ Digits cs := by
  obtain ⟨ds, hds, heq, hs⟩ := exists_takeWhile_eq s
  unfold someDigits at h
  split at h
  · cases h
  · rename_i hempty
    simp only [Except.ok.injEq, Prod.mk.injEq] at h
    rw [h.2] at hs
    refine ⟨ds, hs, ⟨?_, hds⟩⟩
    rintro rfl
    rw [heq] at hempty
    exact hempty rfl

theorem exists_fraction {s r : List UInt8} {ds : Option (List UInt8)}
    (h : fractionDigits s = .ok (ds, r)) : ∃ cs, s = octets cs ++ r ∧ Fraction cs := by
  cases s with
  | nil =>
    cases h
    exact ⟨[], rfl, .none⟩
  | cons b s =>
    simp only [fractionDigits] at h
    split at h
    · rename_i hpoint
      obtain ⟨p, hdigits, heq⟩ := exists_of_map_eq_ok h
      cases heq
      obtain ⟨cs, rfl, hcs⟩ := exists_digits hdigits
      rw [hpoint]
      exact ⟨'.' :: cs, octets_cons_append (by decide), .some hcs⟩
    · cases h
      exact ⟨[], rfl, .none⟩

theorem exists_signed {s r : List UInt8} {e : Int} (h : signedExponent s = .ok (e, r)) :
    ∃ sign ds, s = octets (sign ++ ds) ++ r ∧ (sign = [] ∨ sign = ['+'] ∨ sign = ['-']) ∧
      Digits ds := by
  cases s with
  | nil => cases h
  | cons b s =>
    simp only [signedExponent] at h
    split at h
    · rename_i hplus
      obtain ⟨p, hdigits, heq⟩ := exists_of_map_eq_ok h
      cases heq
      obtain ⟨cs, rfl, hcs⟩ := exists_digits hdigits
      exact ⟨['+'], cs, by rw [hplus]; rfl, .inr (.inl rfl), hcs⟩
    split at h
    · rename_i hminus
      obtain ⟨p, hdigits, heq⟩ := exists_of_map_eq_ok h
      cases heq
      obtain ⟨cs, rfl, hcs⟩ := exists_digits hdigits
      exact ⟨['-'], cs, by rw [hminus]; rfl, .inr (.inr rfl), hcs⟩
    · obtain ⟨p, hdigits, heq⟩ := exists_of_map_eq_ok h
      cases heq
      obtain ⟨cs, hs, hcs⟩ := exists_digits hdigits
      exact ⟨[], cs, hs, .inl rfl, hcs⟩

theorem exists_exponent {s r : List UInt8} {e : Option Int} (h : Json.exponent s = .ok (e, r)) :
    ∃ cs, s = octets cs ++ r ∧ Exponent cs := by
  cases s with
  | nil =>
    cases h
    exact ⟨[], rfl, .none⟩
  | cons b s =>
    simp only [Json.exponent] at h
    split at h
    · rename_i he
      obtain ⟨p, hsigned, heq⟩ := exists_of_map_eq_ok h
      cases heq
      obtain ⟨sign, ds, rfl, hsign, hds⟩ := exists_signed hsigned
      rcases he with rfl | rfl
      · exact ⟨_, octets_cons_append (by decide), .some (.inl rfl) hsign hds⟩
      · exact ⟨_, octets_cons_append (by decide), .some (.inr rfl) hsign hds⟩
    · cases h
      exact ⟨[], rfl, .none⟩

theorem exists_literal {negative : Bool} {s r : List UInt8} {n : Number}
    (h : number negative s = .ok (n, r)) :
    ∃ cs, s = octets cs ++ r ∧ Literal (sign negative ++ cs) := by
  unfold number at h
  obtain ⟨⟨whole, s₁⟩, hwhole, h⟩ := exists_of_bind_eq_ok h
  obtain ⟨⟨fraction, s₂⟩, hfraction, h⟩ := exists_of_bind_eq_ok h
  obtain ⟨⟨e, s₃⟩, hexponent, h⟩ := exists_of_bind_eq_ok h
  obtain ⟨n, -, h⟩ := exists_of_bind_eq_ok h
  cases h
  obtain ⟨ws, rfl, hws⟩ := exists_whole hwhole
  obtain ⟨fs, rfl, hfs⟩ := exists_fraction hfraction
  obtain ⟨es, rfl, hes⟩ := exists_exponent hexponent
  refine ⟨ws ++ (fs ++ es), ?_, .mk ?_ hws hfs hes⟩
  · rw [octets_append, octets_append, List.append_assoc, List.append_assoc]
  · cases negative with
    | true => exact .inr rfl
    | false => exact .inl rfl

/-! ### Readers -/

/-- The characters are a value behind some blanks, whatever follows them. -/
def Spells (cs : List Char) (v : Tree) : Prop :=
  ∀ rest, ∃ t, Skips (cs ++ rest) t ∧ Derives t v rest

/-- Whatever the reader takes off a text is a value of the grammar. -/
structure Accepts {α : Type} (reader : Reader α) : Prop where
  exists_spells : ∀ {s a r}, reader.run s = .ok (a, r) → ∃ cs v, s = octets cs ++ r ∧ Spells cs v

theorem Accepts.map {α β : Type} {reader : Reader α} (h : Accepts reader) (f : α → β) :
    Accepts (reader.map f) where
  exists_spells hrun := by
    obtain ⟨⟨a, t⟩, hrun, heq⟩ := exists_of_map_eq_ok hrun
    cases heq
    exact h.exists_spells hrun

theorem exists_spells_of_skipSpace {s r : List UInt8} {ds : List Char} {v : Tree}
    (hskip : skipSpace s = octets ds ++ r) (hds : ∀ rest, Derives (ds ++ rest) v rest) :
    ∃ cs, s = octets cs ++ r ∧ Spells cs v := by
  obtain ⟨cs, hs, hcs⟩ := exists_skips s
  refine ⟨cs ++ ds, ?_, fun rest => ⟨ds ++ rest, ?_, hds rest⟩⟩
  · rwa [octets_append, List.append_assoc, ← hskip]
  · rw [List.append_assoc]
    exact hcs (ds ++ rest)

/-! ### Items -/

theorem ItemsTail.items {s t u rest : List Char} {v : Tree} {vs : List Tree} (hs : Skips s t)
    (hv : Derives t v u) (h : ItemsTail u vs rest) : Items s (v :: vs) rest := by
  cases h with
  | close hu => exact .last hs hv hu
  | more hu h => exact .next hs hv hu h

section Items

variable {α : Type} {item : Reader α}

theorem Accepts.exists_itemsTail (hitem : Accepts item) {taken as : List α} {s r : List UInt8}
    (h : itemsFrom item taken s = .ok (as, r)) :
    ∃ cs vs, s = octets cs ++ r ∧ ∀ rest, ItemsTail (cs ++ rest) vs rest := by
  fun_induction itemsFrom item taken s with
  | case1 => cases h
  | case2 taken s r' hclose =>
    cases h
    obtain ⟨cs, hs, hcs⟩ := exists_skips_cons (c := ']') (by decide) hclose
    exact ⟨cs, [], hs, fun rest => .close (hcs rest)⟩
  | case3 => cases h
  | case4 => cases h
  | case5 => cases h
  | case6 =>
    rename_i hrun hcomma _ _ ih
    obtain ⟨cs, rfl, hcs⟩ := exists_skips_cons (c := ',') (by decide) hcomma
    obtain ⟨ds, v, rfl, hv⟩ := hitem.exists_spells hrun
    obtain ⟨es, vs, rfl, htail⟩ := ih h
    refine ⟨cs ++ (ds ++ es), v :: vs, ?_, fun rest => ?_⟩
    · rw [octets_append, octets_append, List.append_assoc, List.append_assoc]
    · obtain ⟨t, hskips, hderives⟩ := hv (es ++ rest)
      rw [List.append_assoc, List.append_assoc]
      exact .more (hcs _) ((htail rest).items hskips hderives)
  | case7 => cases h

theorem Accepts.exists_derives_array (hitem : Accepts item) {as : List α} {s r : List UInt8}
    (h : items item s = .ok (as, r)) :
    ∃ cs vs, s = octets cs ++ r ∧ ∀ rest, Derives ('[' :: (cs ++ rest)) (.array vs) rest := by
  unfold items at h
  split at h
  · cases h
  rename_i b t hskip
  split at h
  · rename_i hclose
    cases h
    rw [hclose] at hskip
    obtain ⟨cs, hs, hcs⟩ := exists_skips_cons (c := ']') (by decide) hskip
    exact ⟨cs, [], hs, fun rest => .emptyArray (hcs rest)⟩
  split at h
  · cases h
  rename_i hrun
  obtain ⟨ds, v, rfl, hv⟩ := hitem.exists_spells hrun
  obtain ⟨es, vs, rfl, htail⟩ := hitem.exists_itemsTail h
  refine ⟨ds ++ es, v :: vs, ?_, fun rest => ?_⟩
  · rw [octets_append, List.append_assoc]
  · obtain ⟨t, hskips, hderives⟩ := hv (es ++ rest)
    rw [List.append_assoc]
    exact .array ((htail rest).items hskips hderives)

end Items

/-! ### Members -/

theorem MembersTail.members {s u rest : List Char} {m : String × Tree} {ms : List (String × Tree)}
    (hm : Member s m u) (h : MembersTail u ms rest) : Members s (m :: ms) rest := by
  cases h with
  | close hu => exact .last hm hu
  | more hu h => exact .next hm hu h

/-- The value of each member that is taken in is read as one of the grammar. -/
def AcceptsMembers {σ : Type} (take : Take σ) : Prop :=
  ∀ {state name reader}, take state name = .ok reader → Accepts reader

section Members

variable {σ : Type} {take : Take σ} {state state' : σ} {s r : List UInt8}

theorem exists_colon (h : colon s = .ok r) :
    ∃ cs, s = octets cs ++ r ∧ ∀ rest, Skips (cs ++ rest) (':' :: rest) := by
  unfold colon at h
  split at h
  · cases h
  rename_i hskip
  split at h
  · rename_i hcolon
    cases h
    rw [hcolon] at hskip
    exact exists_skips_cons (by decide) hskip
  · cases h

theorem AcceptsMembers.exists_member (htake : AcceptsMembers take) {q : List UInt8}
    (hquote : skipSpace s = octet '"' :: q) (h : member take state q = .ok (state', r)) :
    ∃ cs m, s = octets cs ++ r ∧ ∀ rest, Member (cs ++ rest) m rest := by
  unfold member at h
  split at h
  · cases h
  rename_i name t hname
  split at h
  · cases h
  rename_i hreader
  split at h
  · cases h
  rename_i hcolon
  obtain ⟨bs, rfl, hbs⟩ := exists_skips_cons (by decide) hquote
  obtain ⟨cs, rfl, hcs⟩ := exists_quoted hname
  obtain ⟨ds, rfl, hds⟩ := exists_colon hcolon
  obtain ⟨es, v, rfl, hes⟩ := (htake hreader).exists_spells h
  refine ⟨bs ++ (cs ++ (ds ++ es)), (String.ofList name.toList, v), ?_, fun rest => ?_⟩
  · simp only [octets_append, List.append_assoc]
  · obtain ⟨u, hskips, hderives⟩ := hes rest
    simp only [List.append_assoc]
    exact .mk (hbs _) (hcs _) (hds _) hskips hderives

theorem AcceptsMembers.exists_membersTail (htake : AcceptsMembers take)
    (h : membersFrom take state s = .ok (state', r)) :
    ∃ cs ms, s = octets cs ++ r ∧ ∀ rest, MembersTail (cs ++ rest) ms rest := by
  fun_induction membersFrom take state s with
  | case1 => cases h
  | case2 state s r' hclose =>
    cases h
    obtain ⟨cs, hs, hcs⟩ := exists_skips_cons (c := '}') (by decide) hclose
    exact ⟨cs, [], hs, fun rest => .close (hcs rest)⟩
  | case3 => cases h
  | case4 => cases h
  | case5 =>
    rename_i hmember hcomma _ hquote _ ih
    obtain ⟨cs, rfl, hcs⟩ := exists_skips_cons (c := ',') (by decide) hcomma
    obtain ⟨ds, m, rfl, hm⟩ := htake.exists_member hquote hmember
    obtain ⟨es, ms, rfl, htail⟩ := ih h
    refine ⟨cs ++ (ds ++ es), m :: ms, ?_, fun rest => ?_⟩
    · rw [octets_append, octets_append, List.append_assoc, List.append_assoc]
    · rw [List.append_assoc, List.append_assoc]
      exact .more (hcs _) ((htail rest).members (hm _))
  | case6 => cases h
  | case7 => cases h
  | case8 => cases h

theorem AcceptsMembers.exists_derives_object (htake : AcceptsMembers take)
    (h : members take state s = .ok (state', r)) :
    ∃ cs ms, s = octets cs ++ r ∧ ∀ rest, Derives ('{' :: (cs ++ rest)) (.object ms) rest := by
  unfold members at h
  split at h
  · cases h
  rename_i b t hskip
  split at h
  · rename_i hclose
    cases h
    rw [hclose] at hskip
    obtain ⟨cs, hs, hcs⟩ := exists_skips_cons (c := '}') (by decide) hskip
    exact ⟨cs, [], hs, fun rest => .emptyObject (hcs rest)⟩
  split at h
  · rename_i hquote
    rw [hquote] at hskip
    split at h
    · cases h
    rename_i hmember
    obtain ⟨ds, m, rfl, hm⟩ := htake.exists_member hskip hmember
    obtain ⟨es, ms, rfl, htail⟩ := htake.exists_membersTail h
    refine ⟨ds ++ es, m :: ms, ?_, fun rest => ?_⟩
    · rw [octets_append, List.append_assoc]
    · rw [List.append_assoc]
      exact .object ((htail rest).members (hm _))
  · cases h

end Members

/-! ### Values -/

theorem eq_of_literal {cs : List Char} {s r : List UInt8} (h : literal cs s = .ok r) :
    s = cs.map octet ++ r := by
  induction cs generalizing s with
  | nil =>
    cases h
    rfl
  | cons c cs ih =>
    cases s with
    | nil => cases h
    | cons b s =>
      simp only [literal] at h
      split at h
      · rename_i hb
        rw [hb, ih h]
        rfl
      · cases h

/-- Behind its blanks, what is read of a value is derived by the grammar. -/
theorem exists_derives {inner : Option (Reader Value)} (hinner : ∀ item ∈ inner, Accepts item)
    {s r : List UInt8} {v : Value} (h : valueRun inner s = .ok (v, r)) :
    ∃ cs t, skipSpace s = octets cs ++ r ∧ ∀ rest, Derives (cs ++ rest) t rest := by
  have hdispatch := dispatch_of_valueRun h
  generalize skipSpace s = q at hdispatch
  cases hdispatch with
  | null hliteral =>
    refine ⟨['n', 'u', 'l', 'l'], .null, ?_, fun rest => .null⟩
    rw [eq_of_literal hliteral]
    rfl
  | true hliteral =>
    refine ⟨['t', 'r', 'u', 'e'], .bool true, ?_, fun rest => .true⟩
    rw [eq_of_literal hliteral]
    rfl
  | false hliteral =>
    refine ⟨['f', 'a', 'l', 's', 'e'], .bool false, ?_, fun rest => .false⟩
    rw [eq_of_literal hliteral]
    rfl
  | negative hnumber =>
    obtain ⟨cs, rfl, hcs⟩ := exists_literal hnumber
    exact ⟨'-' :: cs, .number ('-' :: cs), octets_cons_append (by decide), fun rest => .number hcs⟩
  | number hnumber =>
    obtain ⟨cs, hq, hcs⟩ := exists_literal hnumber
    exact ⟨cs, .number cs, hq, fun rest => .number hcs⟩
  | string hstring =>
    obtain ⟨cs, rfl, hcs⟩ := exists_quoted hstring
    exact ⟨'"' :: cs, _, octets_cons_append (by decide), fun rest => .string (hcs rest)⟩
  | array hitem hitems =>
    obtain ⟨cs, vs, rfl, hcs⟩ := (hinner _ hitem).exists_derives_array hitems
    exact ⟨'[' :: cs, .array vs, octets_cons_append (by decide), hcs⟩
  | @object item _ _ _ hitem hmembers =>
    have htake : AcceptsMembers fun m name =>
        .ok (item.map fun v => FieldMap.insert m name v) := by
      rintro m name reader ⟨⟩
      exact (hinner item hitem).map _
    obtain ⟨cs, ms, rfl, hcs⟩ := htake.exists_derives_object hmembers
    exact ⟨'{' :: cs, .object ms, octets_cons_append (by decide), hcs⟩

theorem accepts_of_valueRun {reader : Reader Value} {inner : Option (Reader Value)}
    (hinner : ∀ item ∈ inner, Accepts item) (hrun : reader.run = valueRun inner) :
    Accepts reader where
  exists_spells h := by
    rw [hrun] at h
    obtain ⟨ds, t, hskip, hds⟩ := exists_derives hinner h
    obtain ⟨cs, hs, hcs⟩ := exists_spells_of_skipSpace hskip hds
    exact ⟨cs, t, hs, hcs⟩

theorem accepts_value (d : Nat) : Accepts (value d) := by
  induction d with
  | zero =>
    have hinner : ∀ item ∈ (none : Option (Reader Value)), Accepts item := by
      rintro item ⟨⟩
    exact accepts_of_valueRun hinner rfl
  | succ d ih =>
    have hinner : ∀ item ∈ some (value d), Accepts item := by
      rintro item ⟨⟩
      exact ih
    exact accepts_of_valueRun hinner rfl

/-- What is read as a whole is a text of the grammar. -/
theorem Accepts.exists_isText {α : Type} {reader : Reader α} (h : Accepts reader) {s : List UInt8}
    {a : α} (hread : reader.readAll s = .ok a) :
    ∃ text v, s = Text.utf8 text ∧ IsText text v := by
  rw [readAll_eq_bind] at hread
  obtain ⟨⟨a, r⟩, hrun, hread⟩ := exists_of_bind_eq_ok hread
  dsimp only at hread
  split at hread
  · rename_i hempty
    obtain ⟨cs, v, rfl, hcs⟩ := h.exists_spells hrun
    obtain ⟨ds, hr, hds⟩ := exists_skips r
    rw [List.isEmpty_iff.1 hempty, List.append_nil] at hr
    obtain ⟨t, hskips, hderives⟩ := hcs ds
    refine ⟨String.ofList (cs ++ ds), v, ?_, t, ds, ?_, hderives, ?_⟩
    · rw [utf8_ofList, octets_append, hr]
    · rwa [String.toList_ofList]
    · have hend := hds []
      rwa [List.append_nil] at hend
  · cases hread

/-- **JSON.** Octets are read as a value exactly if they are those of a text of the grammar that stands
for it. -/
theorem Value.read_eq_ok_iff {s : List UInt8} {v : Value} :
    Value.read s = .ok v ↔
      ∃ text t, s = Text.utf8 text ∧ IsText text t ∧ t.value? maxDepth = some v := by
  constructor
  · intro h
    obtain ⟨text, t, rfl, htext⟩ := (accepts_value maxDepth).exists_isText h
    refine ⟨text, t, rfl, htext, ?_⟩
    rw [← (follows_value maxDepth).readAll htext]
    exact eq_ok_iff_toOption.1 h
  · rintro ⟨text, t, rfl, htext, hvalue⟩
    rw [eq_ok_iff_toOption, ← hvalue]
    exact (follows_value maxDepth).readAll htext

end Gelf.Json
