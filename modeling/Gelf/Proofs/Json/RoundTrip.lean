import Gelf.Proofs.Json.Reads

/-!
# Reading values back

What is printed of a value is read back as the value, at every depth that a reader goes to. Only a
float may come back as another one, so values are compared by `Value.eraseFloats`.
-/

namespace Gelf.Json

/-! ### Scalars -/

def StartsNumber (b : UInt8) : Prop := b = octet '-' ∨ isDigit b = true

theorem ne_of_isDigit {b : UInt8} (h : isDigit b = true) {c : UInt8} (hc : isDigit c = false) :
    b ≠ c := by
  rintro rfl
  rw [h] at hc
  cases hc

theorem not_isSpace_of_isDigit {b : UInt8} (h : isDigit b = true) : isSpace b = false := by
  simp [isSpace, ne_of_isDigit h (show isDigit (octet ' ') = false by decide),
    ne_of_isDigit h (show isDigit (octet '\n') = false by decide),
    ne_of_isDigit h (show isDigit (octet '\t') = false by decide),
    ne_of_isDigit h (show isDigit (octet '\r') = false by decide)]

theorem StartsNumber.not_isSpace {b : UInt8} (h : StartsNumber b) : isSpace b = false := by
  rcases h with rfl | h
  · decide
  · exact not_isSpace_of_isDigit h

theorem StartsNumber.ne {b : UInt8} (h : StartsNumber b) {c : UInt8} (hminus : c ≠ octet '-')
    (hc : isDigit c = false) : b ≠ c := by
  rcases h with rfl | h
  · exact hminus.symm
  · exact ne_of_isDigit h hc

/-- The text of a number, behind the sign that it is read with. -/
def ReadsNumber (negative : Bool) (cs : List Char) (n : Number) : Prop :=
  (∃ c t, cs = c :: t ∧ c.isDigit = true) ∧
    ∀ rest, Ends rest → number negative (octets cs ++ rest) = .ok (n, rest)

theorem readsNumber_integer (n : Integer) :
    ReadsNumber (n.val < 0) (Nat.toDigits 10 n.val.natAbs) (.integer n) := by
  have hne : Nat.toDigits 10 n.val.natAbs ≠ [] := Nat.toDigits_ne_nil
  obtain ⟨c, t, heq⟩ := List.exists_cons_of_ne_nil hne
  refine ⟨⟨c, t, heq, allDigits_toDigits n.val.natAbs c ?_⟩, fun rest => number_integer n⟩
  rw [heq]
  exact List.mem_cons_self

theorem exists_readsNumber_float (x : FiniteFloat) (negative : Bool) :
    ∃ y, ReadsNumber negative ((Decimal.ofFloat numerals.tie x.val).chars numerals) (.real y) := by
  obtain ⟨y, hy⟩ := number_float x negative
  refine ⟨y, ?_, hy⟩
  have hwell : (Numeral.ofDecimal (Decimal.ofFloat numerals.tie x.val)).WellFormed :=
    Numeral.wellFormed_ofDecimal Decimal.exponent_of_coefficient_eq_zero
  obtain ⟨c, t, heq⟩ := List.exists_cons_of_ne_nil hwell.whole_ne_nil
  have hdigit := hwell.whole_digits c (heq ▸ List.mem_cons_self)
  rw [← Numeral.chars_ofDecimal, Numeral.chars, heq]
  exact ⟨c, _, rfl, hdigit⟩

def sign (negative : Bool) : List Char := if negative then ['-'] else []

theorem ReadsNumber.starts {negative : Bool} {cs : List Char} {n : Number}
    (h : ReadsNumber negative cs n) :
    ∃ b s, octets (sign negative ++ cs) = b :: s ∧ StartsNumber b := by
  obtain ⟨c, t, rfl, hc⟩ := h.1
  have hle := toNat_mem_of_isDigit hc
  cases negative with
  | true => exact ⟨octet '-', _, octets_cons_of_le _ (by decide), .inl rfl⟩
  | false => exact ⟨octet c, _, octets_cons_of_le _ (by omega), .inr (isDigit_octet hc)⟩

theorem valueRun_number (inner : Option (Reader Value)) (negative : Bool) {c : Char}
    (hc : c.isDigit = true) (t : List Char) (rest : List UInt8) :
    valueRun inner (octets (sign negative ++ c :: t) ++ rest) =
      (number negative (octets (c :: t) ++ rest)).map fun (n, t) => (.number n, t) := by
  have hle := toNat_mem_of_isDigit hc
  have hdigit := isDigit_octet hc
  have htext : octets (c :: t) ++ rest = octet c :: (octets t ++ rest) := by
    rw [octets_cons_of_le _ (by omega), List.cons_append]
  cases negative with
  | true =>
    have hsign : octets (sign true ++ c :: t) ++ rest = octet '-' :: (octets (c :: t) ++ rest) := by
      rw [sign, if_pos rfl, List.cons_append, octets_cons_of_le _ (by decide)]
      rfl
    rw [hsign, valueRun, skipSpace_cons (by decide)]
    dsimp only
    rw [if_neg (by decide), if_neg (by decide), if_neg (by decide), if_pos rfl]
  | false =>
    rw [sign, if_neg (by decide), List.nil_append, htext, valueRun,
      skipSpace_cons (not_isSpace_of_isDigit hdigit)]
    dsimp only
    rw [if_neg (ne_of_isDigit hdigit (by decide)), if_neg (ne_of_isDigit hdigit (by decide)),
      if_neg (ne_of_isDigit hdigit (by decide)), if_neg (ne_of_isDigit hdigit (by decide)),
      if_pos hdigit]

theorem ReadsNumber.valueRun {negative : Bool} {cs : List Char} {n : Number}
    (h : ReadsNumber negative cs n) (inner : Option (Reader Value)) {rest : List UInt8}
    (hrest : Ends rest) :
    valueRun inner (octets (sign negative ++ cs) ++ rest) = .ok (.number n, rest) := by
  obtain ⟨⟨c, t, rfl, hc⟩, hread⟩ := h
  rw [valueRun_number inner negative hc, hread rest hrest]
  rfl

/-- The sign bit. -/
def isNegative (x : Float) : Bool := x.toBits &&& 0x8000000000000000 ≠ 0

theorem signChars_eq_sign (x : Float) : Decimal.signChars x = sign (isNegative x) := by
  unfold Decimal.signChars sign isNegative
  by_cases h : x.toBits &&& 0x8000000000000000 = 0
  · rw [if_pos h, if_neg (by simpa using h)]
  · rw [if_neg h, if_pos (by simpa using h)]

/-- What is printed of the first float is read as the second. -/
def ReadsBack (x y : FiniteFloat) : Prop :=
  ReadsNumber (isNegative x.val) ((Decimal.ofFloat numerals.tie x.val).chars numerals) (.real y)

theorem exists_readsBack (x : FiniteFloat) : ∃ y, ReadsBack x y :=
  exists_readsNumber_float x (isNegative x.val)

theorem chars_real (x : FiniteFloat) : (Number.real x).chars =
    sign (isNegative x.val) ++ (Decimal.ofFloat numerals.tie x.val).chars numerals := by
  rw [Number.chars, Decimal.floatChars, signChars_eq_sign]

theorem integerChars_eq_sign (n : Int) :
    integerChars n = sign (n < 0) ++ Nat.toDigits 10 n.natAbs := by
  unfold integerChars sign
  by_cases h : n < 0
  · rw [if_pos h, if_pos (by simpa using h)]
    rfl
  · rw [if_neg h, if_neg (by simpa using h)]
    rfl

/-! ### Values up to floats -/

theorem isFinite_zero : (0 : Float).isFinite = true := by
  decide +kernel

def Number.eraseFloat : Number → Number
  | .integer n => .integer n
  | .real _ => .real ⟨0, isFinite_zero⟩

namespace Value

mutual

/-- The value, with zero in place of every float at every depth. -/
def eraseFloats : Value → Value
  | .number n => .number n.eraseFloat
  | .array items => .array (eraseItems items)
  | .object members => .object (eraseMembers members)
  | v => v

def eraseItems : List Value → List Value
  | [] => []
  | v :: vs => v.eraseFloats :: eraseItems vs

def eraseMembers : List (String × Value) → List (String × Value)
  | [] => []
  | (name, v) :: ms => (name, v.eraseFloats) :: eraseMembers ms

end

theorem lookup_eraseMembers (ms : List (String × Value)) (name : String) :
    (eraseMembers ms).lookup name = (ms.lookup name).map eraseFloats := by
  induction ms with
  | nil => rfl
  | cons m ms ih =>
    rw [eraseMembers, lookup_cons, lookup_cons, ih]
    split <;> rfl

end Value

theorem exists_readsNumber (n : Number) :
    ∃ m, m.eraseFloat = n.eraseFloat ∧
      ∃ negative cs, n.chars = sign negative ++ cs ∧ ReadsNumber negative cs m := by
  cases n with
  | integer n =>
    exact ⟨.integer n, rfl, _, _, integerChars_eq_sign n.val, readsNumber_integer n⟩
  | real x =>
    obtain ⟨y, hy⟩ := exists_readsBack x
    exact ⟨.real y, rfl, _, _, chars_real x, hy⟩

/-! ### Every value -/

theorem startsItem_chars (v : Value) : StartsItem v.chars := by
  cases v with
  | null => exact ⟨octet 'n', _, octets_cons_of_le _ (by decide), by decide, by decide⟩
  | bool b =>
    rw [Value.chars]
    cases b with
    | true => exact ⟨octet 't', _, octets_cons_of_le ['r', 'u', 'e'] (by decide), by decide⟩
    | false => exact ⟨octet 'f', _, octets_cons_of_le ['a', 'l', 's', 'e'] (by decide), by decide⟩
  | number n =>
    obtain ⟨m, -, negative, cs, heq, hread⟩ := exists_readsNumber n
    obtain ⟨b, s, hchars, hstart⟩ := hread.starts
    rw [Value.chars, heq]
    exact ⟨b, s, hchars, hstart.not_isSpace, hstart.ne (by decide) (by decide)⟩
  | string s =>
    rw [Value.chars]
    exact ⟨octet '"', _, octets_cons_of_le _ (by decide), by decide⟩
  | array items =>
    cases items with
    | nil => exact ⟨octet '[', _, octets_cons_of_le _ (by decide), by decide⟩
    | cons v vs => exact ⟨octet '[', _, octets_cons_of_le _ (by decide), by decide⟩
  | object members =>
    rw [chars_object]
    exact ⟨octet '{', _, octets_cons_of_le _ (by decide), by decide⟩

theorem exists_run_value (d : Nat) : ∃ inner, (value d).run = valueRun inner := by
  cases d with
  | zero => exact ⟨none, rfl⟩
  | succ d => exact ⟨some (value d), rfl⟩

theorem valueRun_null (inner : Option (Reader Value)) (rest : List UInt8) :
    valueRun inner (octets Value.null.chars ++ rest) = .ok (.null, rest) := by
  have htext : octets Value.null.chars ++ rest =
      octet 'n' :: octet 'u' :: octet 'l' :: octet 'l' :: rest := by
    rw [Value.chars]
    rfl
  rw [htext, valueRun, skipSpace_cons (by decide)]
  rfl

theorem valueRun_bool (inner : Option (Reader Value)) (b : Bool) (rest : List UInt8) :
    valueRun inner (octets (Value.bool b).chars ++ rest) = .ok (.bool b, rest) := by
  cases b with
  | true =>
    have htext : octets (Value.bool true).chars ++ rest =
        octet 't' :: octet 'r' :: octet 'u' :: octet 'e' :: rest := by
      rw [Value.chars]
      rfl
    rw [htext, valueRun, skipSpace_cons (by decide)]
    rfl
  | false =>
    have htext : octets (Value.bool false).chars ++ rest =
        octet 'f' :: octet 'a' :: octet 'l' :: octet 's' :: octet 'e' :: rest := by
      rw [Value.chars]
      rfl
    rw [htext, valueRun, skipSpace_cons (by decide)]
    rfl

theorem valueRun_quote (inner : Option (Reader Value)) (s : List UInt8) :
    valueRun inner (octet '"' :: s) = (string s).map fun (text, t) => (.string text, t) := by
  rw [valueRun, skipSpace_cons (by decide)]
  dsimp only
  rw [if_neg (by decide), if_neg (by decide), if_neg (by decide), if_neg (by decide),
    if_neg (by decide), if_pos rfl]

theorem valueRun_bracket (inner : Option (Reader Value)) (s : List UInt8) :
    valueRun inner (octet '[' :: s) =
      match inner with
      | none => .error .tooDeep
      | some item => (items item s).map fun (vs, t) => (.array vs, t) := by
  rw [valueRun, skipSpace_cons (by decide)]
  dsimp only
  rw [if_neg (by decide), if_neg (by decide), if_neg (by decide), if_neg (by decide),
    if_neg (by decide), if_neg (by decide)]
  exact if_pos rfl

theorem valueRun_brace (inner : Option (Reader Value)) (s : List UInt8) :
    valueRun inner (octet '{' :: s) =
      match inner with
      | none => .error .tooDeep
      | some item =>
        (members (fun m name => .ok (item.map fun v => FieldMap.insert m name v))
          FieldMap.empty s).map fun (m, t) => (.ofFields m, t) := by
  rw [valueRun, skipSpace_cons (by decide)]
  dsimp only
  rw [if_neg (by decide), if_neg (by decide), if_neg (by decide), if_neg (by decide),
    if_neg (by decide), if_neg (by decide), if_neg (by decide)]
  exact if_pos rfl

theorem valueRun_string (inner : Option (Reader Value)) (text : String) (rest : List UInt8) :
    valueRun inner (octets (stringChars text) ++ rest) = .ok (.string text, rest) := by
  obtain ⟨t, heq, hstring⟩ := string_stringChars text rest
  rw [heq, valueRun_quote, hstring]
  rfl

theorem valueRun_array {item : Reader Value} {vs ws : List Value}
    (h : List.Forall₂ (fun v w => Reads item v.chars w) vs ws) (rest : List UInt8) :
    valueRun (some item) (octets (Value.array vs).chars ++ rest) = .ok (.array ws, rest) := by
  obtain ⟨t, htext, hitems⟩ : ∃ t, octets (Value.array vs).chars ++ rest = octet '[' :: t ∧
      items item t = .ok (ws, rest) := by
    cases h with
    | nil =>
      refine ⟨octet ']' :: rest, by rw [Value.chars]; rfl, ?_⟩
      rw [items, skipSpace_cons (by decide)]
      exact if_pos rfl
    | @cons v w vs ws hv hvs =>
      refine ⟨_, ?_, items_octets hv hvs (fun v _ => startsItem_chars v) rest⟩
      rw [Value.chars, octets_cons_of_le _ (by decide)]
      rfl
  rw [htext, valueRun_bracket]
  dsimp only
  rw [hitems]
  rfl

def ReadMembers (item : Reader Value) : List (String × Value) → List (String × Value) → Prop :=
  List.Forall₂ fun m n => m.1 = n.1 ∧ Reads item m.2.chars n.2

theorem ReadMembers.map_fst {item : Reader Value} {ms ns : List (String × Value)}
    (h : ReadMembers item ms ns) : ms.map Prod.fst = ns.map Prod.fst := by
  induction h with
  | nil => rfl
  | cons hm _ ih => rw [List.map_cons, List.map_cons, hm.1, ih]

theorem ReadMembers.takesAll {σ : Type} {take : Take σ} {put : σ → String → Value → σ}
    {item : Reader Value} {ms ns : List (String × Value)} (h : ReadMembers item ms ns)
    (htake : ∀ s, ∀ m ∈ ms, take s m.1 = .ok (item.map fun v => put s m.1 v)) (s : σ) :
    TakesAll take s ms (ns.foldl (fun s n => put s n.1 n.2) s) := by
  induction h generalizing s with
  | nil => rfl
  | @cons m n ms ns hm _ ih =>
    refine ⟨_, put s m.1 n.2, htake s m List.mem_cons_self, hm.2.map _, ?_⟩
    rw [List.foldl_cons, ← hm.1]
    exact ih (fun s m' hm' => htake s m' (List.mem_cons_of_mem m hm')) _

theorem increasing_iff_map_fst {α : Type} (entries : List (String × α)) :
    Increasing entries ↔ (entries.map Prod.fst).Pairwise (· < ·) :=
  List.pairwise_map.symm

theorem valueRun_object {item : Reader Value} {ms ns : List (String × Value)}
    (h : ReadMembers item ms ns) (hms : Increasing ms) (rest : List UInt8) :
    valueRun (some item) (octets (Value.object ms).chars ++ rest) = .ok (.object ns, rest) := by
  have hns : Increasing ns := by
    rw [increasing_iff_map_fst, ← h.map_fst, ← increasing_iff_map_fst]
    exact hms
  have htakes : TakesAll (fun m name => .ok (item.map fun v => FieldMap.insert m name v))
      FieldMap.empty ms (ns.foldl (fun m n => m.insert n.1 n.2) FieldMap.empty) :=
    h.takesAll (fun _ _ _ => rfl) FieldMap.empty
  have hentries := FieldMap.entries_foldl_insert (m := FieldMap.empty) hns
  rw [chars_object, octets_cons_of_le _ (by decide), List.cons_append, valueRun_brace]
  dsimp only
  rw [members_octets htakes]
  show Except.ok (Value.object (FieldMap.entries _), rest) = _
  rw [hentries]
  rfl

mutual

/-- **Values.** What is printed of a value is read back as the value, up to floats. -/
theorem exists_reads_value (v : Value) {d : Nat} (hv : v.Ordered) (hd : v.depth ≤ d) :
    ∃ w, Reads (value d) v.chars w ∧ w.eraseFloats = v.eraseFloats := by
  -- Scalars are read the same way at every depth. Only arrays and objects use one up.
  obtain ⟨inner, hinner⟩ := exists_run_value d
  cases v with
  | null => exact ⟨.null, fun rest _ => hinner ▸ valueRun_null inner rest, rfl⟩
  | bool b => exact ⟨.bool b, fun rest _ => hinner ▸ valueRun_bool inner b rest, rfl⟩
  | string s =>
    refine ⟨.string s, ?_, rfl⟩
    intro rest _
    rw [hinner, Value.chars, valueRun_string]
  | number n =>
    obtain ⟨m, herase, negative, cs, heq, hread⟩ := exists_readsNumber n
    refine ⟨.number m, ?_, ?_⟩
    · intro rest hrest
      rw [hinner, Value.chars, heq]
      exact hread.valueRun inner hrest
    · rw [Value.eraseFloats, Value.eraseFloats, herase]
  | array vs =>
    rw [Value.depth] at hd
    obtain ⟨d, rfl⟩ : ∃ k, d = k + 1 := ⟨d - 1, by omega⟩
    obtain ⟨ws, hreads, herase⟩ := exists_reads_items vs (d := d) hv (by omega)
    refine ⟨.array ws, fun rest _ => valueRun_array hreads rest, ?_⟩
    rw [Value.eraseFloats, Value.eraseFloats, herase]
  | object ms =>
    rw [Value.depth] at hd
    obtain ⟨d, rfl⟩ : ∃ k, d = k + 1 := ⟨d - 1, by omega⟩
    obtain ⟨ns, hreads, herase⟩ := exists_readMembers ms (d := d) hv.2 (by omega)
    refine ⟨.object ns, fun rest _ => valueRun_object hreads hv.1 rest, ?_⟩
    rw [Value.eraseFloats, Value.eraseFloats, herase]

theorem exists_reads_items (vs : List Value) {d : Nat} (hvs : Value.AllOrdered vs)
    (hd : Value.itemsDepth vs ≤ d) :
    ∃ ws, List.Forall₂ (fun v w => Reads (value d) v.chars w) vs ws ∧
      Value.eraseItems ws = Value.eraseItems vs := by
  cases vs with
  | nil => exact ⟨[], .nil, rfl⟩
  | cons v vs =>
    rw [Value.itemsDepth] at hd
    obtain ⟨w, hread, hw⟩ := exists_reads_value v (d := d) hvs.1 (by omega)
    obtain ⟨ws, hreads, hws⟩ := exists_reads_items vs (d := d) hvs.2 (by omega)
    refine ⟨w :: ws, .cons hread hreads, ?_⟩
    rw [Value.eraseItems, Value.eraseItems, hw, hws]

theorem exists_readMembers (ms : List (String × Value)) {d : Nat} (hms : Value.MembersOrdered ms)
    (hd : Value.membersDepth ms ≤ d) :
    ∃ ns, ReadMembers (value d) ms ns ∧ Value.eraseMembers ns = Value.eraseMembers ms := by
  cases ms with
  | nil => exact ⟨[], .nil, rfl⟩
  | cons m ms =>
    obtain ⟨name, v⟩ := m
    rw [Value.membersDepth] at hd
    obtain ⟨w, hread, hw⟩ := exists_reads_value v (d := d) hms.1 (by omega)
    obtain ⟨ns, hreads, hns⟩ := exists_readMembers ms (d := d) hms.2 (by omega)
    refine ⟨(name, w) :: ns, .cons ⟨rfl, hread⟩ hreads, ?_⟩
    rw [Value.eraseMembers, Value.eraseMembers, hw, hns]

end

/-- The text of a value that a reader goes into is read back as the value, up to floats. -/
theorem Value.exists_read_text {v : Value} (hv : v.Ordered) (hd : v.depth ≤ maxDepth) :
    ∃ w, Value.read (Text.utf8 v.text) = .ok w ∧ w.eraseFloats = v.eraseFloats := by
  obtain ⟨w, hreads, herase⟩ := exists_reads_value v hv hd
  refine ⟨w, ?_, herase⟩
  rw [Value.text, utf8_ofList]
  exact hreads.readAll

end Gelf.Json
