import Gelf.Proofs.Json.Grammar
import Gelf.Proofs.Json.RoundTrip

/-!
# Printed values in the grammar

What is printed of a value is JSON, and it says the value, with each number as it was printed and
the members of each object in their order. No character of it is a control character.
-/

namespace Gelf.Json

namespace Value

mutual

/-- What the text of a value says. -/
def tree : Value → Tree
  | .null => .null
  | .bool b => .bool b
  | .number n => .number n.chars
  | .string s => .string s
  | .array items => .array (itemTrees items)
  | .object members => .object (memberTrees members)

def itemTrees : List Value → List Tree
  | [] => []
  | v :: vs => v.tree :: itemTrees vs

def memberTrees : List (String × Value) → List (String × Tree)
  | [] => []
  | (name, v) :: ms => (name, v.tree) :: memberTrees ms

end

theorem memberTrees_eq_map (ms : List (String × Value)) :
    memberTrees ms = ms.map fun m => (m.1, m.2.tree) := by
  induction ms with
  | nil => rfl
  | cons m ms ih => rw [memberTrees, ih, List.map_cons]

end Value

/-! ### Numbers -/

namespace Grammar

theorem exponent_exponentChars (e : Option Int) : Exponent (Numeral.exponentChars e) := by
  cases e with
  | none => exact .none
  | some e =>
    have hdigits : Digits (Nat.toDigits 10 e.natAbs) :=
      ⟨Nat.toDigits_ne_nil, allDigits_toDigits e.natAbs⟩
    rw [Numeral.exponentChars]
    split
    · exact @Exponent.some 'e' ['-'] _ (.inl rfl) (.inr (.inr rfl)) hdigits
    · exact @Exponent.some 'e' ['+'] _ (.inl rfl) (.inr (.inl rfl)) hdigits

theorem literal_of_wellFormed {n : Numeral} (h : n.WellFormed) (negative : Bool) :
    Literal (sign negative ++ n.chars) := by
  have hsign : sign negative = [] ∨ sign negative = ['-'] := by
    cases negative with
    | true => exact .inr rfl
    | false => exact .inl rfl
  have hwhole : Whole n.whole := by
    by_cases hzero : n.whole.head? = some '0'
    · rw [h.zero hzero]
      exact .zero
    · exact .digits ⟨h.whole_ne_nil, h.whole_digits⟩ hzero
  have hfraction : Fraction (Numeral.fractionChars n.fraction) := by
    cases hds : n.fraction with
    | none => exact .none
    | some ds =>
      have hdigits := h.fraction_digits
      rw [hds] at hdigits
      exact .some ⟨h.fraction_ne_nil ds hds, hdigits⟩
  exact .mk hsign hwhole hfraction (exponent_exponentChars n.exponent)

theorem literal_chars (n : Number) : Literal n.chars := by
  cases n with
  | integer n =>
    have hliteral := literal_of_wellFormed (Numeral.wellFormed_ofNat n.val.natAbs) (n.val < 0)
    have hchars : (Numeral.ofNat n.val.natAbs).chars = Nat.toDigits 10 n.val.natAbs :=
      List.append_nil _
    rw [hchars] at hliteral
    rw [Number.chars, integerChars_eq_sign]
    exact hliteral
  | real x =>
    rw [chars_real, ← Numeral.chars_ofDecimal]
    exact literal_of_wellFormed
      (Numeral.wellFormed_ofDecimal Decimal.exponent_of_coefficient_eq_zero) _

/-! ### Strings -/

theorem hexDigit?_digitChar : ∀ n < 16, Text.hexDigit? (Nat.digitChar n) = some n := by
  decide

theorem unit?_control {n : Nat} (h : n < 0x20) :
    unit? '0' '0' (Nat.digitChar (n / 16)) (Nat.digitChar (n % 16)) = some n := by
  have hzero : Text.hexDigit? '0' = some 0 := rfl
  have hhigh := hexDigit?_digitChar (n / 16) (by omega)
  have hlow := hexDigit?_digitChar (n % 16) (Nat.mod_lt n (by decide))
  simp only [unit?, hzero, hhigh, hlow, Option.some.injEq]
  omega

/-- A character is said by its escape, or by itself if it has none. -/
theorem quoted_escapeChar (c : Char) {s cs rest : List Char} (h : Quoted s cs rest) :
    Quoted (escapeChar c ++ s) (c :: cs) rest := by
  have hescape {e : Char} (he : (e, c) ∈ escapes) : Quoted ('\\' :: e :: s) (c :: cs) rest :=
    .escape he h
  have hofNat {n : Nat} (hn : c.toNat = n) : c = Char.ofNat n := by
    rw [← hn, Char.ofNat_toNat]
  unfold escapeChar
  split_ifs with hquote hbackslash hplain hbackspace hfeed hline hreturn htab
  · exact hescape (by rw [hquote]; decide)
  · exact hescape (by rw [hbackslash]; decide)
  · exact .plain hplain hquote hbackslash h
  · exact hescape (by rw [hofNat hbackspace]; decide)
  · exact hescape (by rw [hofNat hfeed]; decide)
  · exact hescape (by rw [hline]; decide)
  · exact hescape (by rw [hreturn]; decide)
  · exact hescape (by rw [htab]; decide)
  · have hunit := unit?_control (Nat.lt_of_not_le hplain)
    have hquoted := Quoted.unit hunit (.inl (by omega)) h
    rw [Char.ofNat_toNat] at hquoted
    exact hquoted

theorem quoted_flatMap_escapeChar (cs rest : List Char) :
    Quoted (cs.flatMap escapeChar ++ '"' :: rest) cs rest := by
  induction cs with
  | nil => exact .close
  | cons c cs ih =>
    rw [List.flatMap_cons, List.append_assoc]
    exact quoted_escapeChar c ih

/-- The text of a string behind its opening quote. -/
theorem exists_quoted_stringChars (s : String) (rest : List Char) :
    ∃ t, stringChars s ++ rest = '"' :: t ∧ Quoted t s.toList rest := by
  refine ⟨s.toList.flatMap escapeChar ++ '"' :: rest, ?_, quoted_flatMap_escapeChar _ _⟩
  rw [stringChars, List.cons_append, List.append_assoc]
  rfl

/-! ### Values -/

theorem member_chars {name : String} {v : Value}
    (hv : ∀ rest, Derives (v.chars ++ rest) v.tree rest) (rest : List Char) :
    Member (stringChars name ++ ':' :: (v.chars ++ rest)) (name, v.tree) rest := by
  obtain ⟨t, heq, hname⟩ := exists_quoted_stringChars name (':' :: (v.chars ++ rest))
  have hmember : Member (stringChars name ++ ':' :: (v.chars ++ rest))
      (String.ofList name.toList, v.tree) rest := by
    rw [heq]
    exact .mk .none hname .none .none (hv rest)
  rwa [String.ofList_toList] at hmember

mutual

/-- **Values.** What is printed of a value says the value. -/
theorem derives_chars : (v : Value) → (rest : List Char) → Derives (v.chars ++ rest) v.tree rest
  | .null, _ => .null
  | .bool true, _ => .true
  | .bool false, _ => .false
  | .number n, rest => .number (literal_chars n)
  | .string s, rest => by
    obtain ⟨t, heq, hquoted⟩ := exists_quoted_stringChars s rest
    have hderives := Derives.string hquoted
    rw [String.ofList_toList] at hderives
    rw [Value.chars, heq]
    exact hderives
  | .array [], _ => .emptyArray .none
  | .array (v :: vs), rest => by
    have hitems := items_chars (derives_chars v) vs rest
    rw [Value.chars, List.cons_append, List.append_assoc]
    exact .array hitems
  | .object [], _ => .emptyObject .none
  | .object ((name, v) :: ms), rest => by
    have hmembers := @members_chars name v (derives_chars v) ms rest
    rw [Value.chars, List.cons_append, List.append_assoc, List.cons_append, List.append_assoc]
    exact .object hmembers

theorem items_chars {v : Value} (hv : ∀ rest, Derives (v.chars ++ rest) v.tree rest) :
    (vs : List Value) → (rest : List Char) →
      Items (v.chars ++ (Value.itemsTail vs ++ rest)) (v.tree :: Value.itemTrees vs) rest
  | [], rest => .last .none (hv _) .none
  | w :: vs, rest => by
    have hitems := items_chars (derives_chars w) vs rest
    rw [Value.itemsTail, List.cons_append, List.append_assoc]
    exact .next .none (hv _) .none hitems

theorem members_chars {name : String} {v : Value}
    (hv : ∀ rest, Derives (v.chars ++ rest) v.tree rest) :
    (ms : List (String × Value)) → (rest : List Char) →
      Members (stringChars name ++ ':' :: (v.chars ++ (Value.membersTail ms ++ rest)))
        ((name, v.tree) :: Value.memberTrees ms) rest
  | [], rest => .last (member_chars hv _) .none
  | (name', w) :: ms, rest => by
    have hmembers := @members_chars name' w (derives_chars w) ms rest
    rw [Value.membersTail, List.cons_append, List.append_assoc, List.cons_append,
      List.append_assoc]
    exact .next (member_chars hv _) .none hmembers

end

theorem isText_text (v : Value) : IsText v.text v.tree := by
  refine ⟨v.chars, [], ?_, ?_, .none⟩
  · rw [Value.text, String.toList_ofList]
    exact .none
  · have hderives := derives_chars v []
    rwa [List.append_nil] at hderives

/-- The text of an object in the shape a message is written in: its members, each printed. -/
theorem isText_object (ms : List (String × Value)) :
    IsText (Value.object ms).text (.object (Value.memberTrees ms)) := by
  have htext := isText_text (.object ms)
  rwa [Value.tree] at htext

/-! ### Control characters -/

def NoControl (cs : List Char) : Prop := ∀ c ∈ cs, 0x20 ≤ c.toNat

instance (cs : List Char) : Decidable (NoControl cs) :=
  decidable_of_iff (cs.all (fun c => 0x20 ≤ c.toNat) = true)
    (by simp only [NoControl, List.all_eq_true, decide_eq_true_iff])

theorem noControl_nil : NoControl [] := nofun

theorem NoControl.cons {c : Char} {cs : List Char} (h : NoControl cs) (hc : 0x20 ≤ c.toNat) :
    NoControl (c :: cs) := by
  intro d hd
  rcases List.mem_cons.1 hd with rfl | hd
  · exact hc
  · exact h d hd

theorem NoControl.append {cs ds : List Char} (hcs : NoControl cs) (hds : NoControl ds) :
    NoControl (cs ++ ds) := by
  intro c hc
  rcases List.mem_append.1 hc with hc | hc
  · exact hcs c hc
  · exact hds c hc

theorem Digits.noControl {ds : List Char} (h : Digits ds) : NoControl ds := by
  intro c hc
  have hdigit := toNat_mem_of_isDigit (h.digits c hc)
  omega

theorem Literal.noControl {cs : List Char} (h : Literal cs) : NoControl cs := by
  obtain ⟨hsign, hwhole, hfraction, hexponent⟩ := h
  refine .append ?_ (.append ?_ (.append ?_ ?_))
  · rcases hsign with rfl | rfl <;> decide
  · cases hwhole with
    | zero => decide
    | digits hdigits => exact hdigits.noControl
  · cases hfraction with
    | none => exact noControl_nil
    | some hdigits => exact hdigits.noControl.cons (by decide)
  · cases hexponent with
    | none => exact noControl_nil
    | some he hsign hdigits =>
      refine .cons (.append ?_ hdigits.noControl) ?_
      · rcases hsign with rfl | rfl | rfl <;> decide
      · rcases he with rfl | rfl <;> decide

theorem noControl_escapeChar (c : Char) : NoControl (escapeChar c) := by
  unfold escapeChar
  split_ifs with hquote hbackslash hplain
  · decide
  · decide
  · exact noControl_nil.cons hplain
  iterate 5 decide
  · have hdigit : ∀ n < 16, 0x20 ≤ (Nat.digitChar n).toNat := by decide
    have hhigh := hdigit (c.toNat / 16) (by omega)
    have hlow := hdigit (c.toNat % 16) (Nat.mod_lt c.toNat (by decide))
    have hprefix : NoControl ['\\', 'u', '0', '0'] := by decide
    exact hprefix.append ((noControl_nil.cons hlow).cons hhigh)

theorem noControl_stringChars (s : String) : NoControl (stringChars s) := by
  refine .cons (.append ?_ (noControl_nil.cons (by decide))) (by decide)
  intro c hc
  obtain ⟨d, -, hd⟩ := List.mem_flatMap.1 hc
  exact noControl_escapeChar d c hd

mutual

/-- **One line.** Nothing that is printed of a value is a control character. -/
theorem noControl_chars : (v : Value) → NoControl v.chars
  | .null => by rw [Value.chars]; decide
  | .bool true => by rw [Value.chars]; decide
  | .bool false => by rw [Value.chars]; decide
  | .number n => (literal_chars n).noControl
  | .string s => noControl_stringChars s
  | .array [] => by rw [Value.chars]; decide
  | .array (v :: vs) => by
    rw [Value.chars]
    exact .cons (.append (noControl_chars v) (noControl_itemsTail vs)) (by decide)
  | .object [] => by rw [Value.chars]; decide
  | .object ((name, v) :: ms) => by
    have hvalue := (noControl_chars v).append (noControl_membersTail ms)
    rw [Value.chars]
    exact .cons (.append (noControl_stringChars name) (hvalue.cons (by decide))) (by decide)

theorem noControl_itemsTail : (vs : List Value) → NoControl (Value.itemsTail vs)
  | [] => by rw [Value.itemsTail]; decide
  | v :: vs => by
    rw [Value.itemsTail]
    exact .cons (.append (noControl_chars v) (noControl_itemsTail vs)) (by decide)

theorem noControl_membersTail : (ms : List (String × Value)) → NoControl (Value.membersTail ms)
  | [] => by rw [Value.membersTail]; decide
  | (name, v) :: ms => by
    have hvalue := (noControl_chars v).append (noControl_membersTail ms)
    rw [Value.membersTail]
    exact .cons (.append (noControl_stringChars name) (hvalue.cons (by decide))) (by decide)

end

theorem le_of_mem_octets {cs : List Char} (h : NoControl cs) {b : UInt8} (hb : b ∈ octets cs) :
    0x20 ≤ b := by
  obtain ⟨c, hc, hb⟩ := List.mem_flatMap.1 hb
  rw [UInt8.le_iff_toNat_le]
  by_cases hascii : c.toNat ≤ 0x7f
  · rw [utf8EncodeChar_of_le hascii, List.mem_singleton] at hb
    rw [hb, toNat_octet hascii]
    exact h c hc
  · have hlarge := le_of_mem_utf8EncodeChar (Nat.not_le.1 hascii) hb
    exact Nat.le_trans (by decide) hlarge

end Grammar

end Gelf.Json
