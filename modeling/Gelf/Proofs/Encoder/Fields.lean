import Gelf.Encoder

/-!
# Fields on the wire

A field can be spelled in two ways, with an underscore before its name and without one, and both get
the same name on the wire. So a map may hold two values for it. The one whose spelling comes later
in the order of names is sent, and an event that holds any comes before the encoder.
-/

namespace Gelf

open Json (Fields Value)

/-! ### Names -/

/-- The names that additional fields have on the wire, behind their underscore. -/
structure IsWireName (n : String) : Prop where
  ne_empty : n ≠ ""
  ne_id : n ≠ "id"
  allowed : ∀ c ∈ n.toList, isFieldChar c = true

instance (n : String) : Decidable (IsWireName n) :=
  decidable_of_iff (n ≠ "" ∧ n ≠ "id" ∧ n.toList.all isFieldChar = true)
    ⟨fun h => ⟨h.1, h.2.1, List.all_eq_true.1 h.2.2⟩,
      fun h => ⟨h.ne_empty, h.ne_id, List.all_eq_true.2 h.allowed⟩⟩

def hasUnderscore (name : String) : Bool := name.toList.head? = some '_'

theorem hasUnderscore_append (n : String) : hasUnderscore ("_" ++ n) = true := by
  rw [hasUnderscore, String.toList_append]
  rfl

theorem isWireName_ofList_iff {cs : List Char} :
    IsWireName (String.ofList cs) ↔ ¬ (cs = [] ∨ cs = ['i', 'd']) ∧ cs.all isFieldChar = true := by
  have hempty : String.ofList cs = "" ↔ cs = [] := by
    rw [← String.toList_inj, String.toList_ofList]
    rfl
  have hid : String.ofList cs = "id" ↔ cs = ['i', 'd'] := by
    rw [← String.toList_inj, String.toList_ofList]
    rfl
  rw [List.all_eq_true, ← hempty, ← hid, not_or]
  constructor
  · rintro ⟨hne, hne', hall⟩
    rw [String.toList_ofList] at hall
    exact ⟨⟨hne, hne'⟩, hall⟩
  · rintro ⟨⟨hne, hne'⟩, hall⟩
    rw [← String.toList_ofList (l := cs)] at hall
    exact ⟨hne, hne', hall⟩

/-- What is left of a name behind its underscore, or all of it if it has none. -/
def bareChars : List Char → List Char
  | '_' :: cs => cs
  | cs => cs

theorem bareChars_eq_iff {cs ds : List Char} :
    bareChars ds = cs ↔ ds = '_' :: cs ∨ ds = cs ∧ cs.head? ≠ some '_' := by
  cases ds with
  | nil => cases cs <;> simp [bareChars]
  | cons d ds =>
    by_cases hd : d = '_'
    · subst hd
      simp only [bareChars, List.cons.injEq, true_and]
      constructor
      · exact .inl
      · rintro (heq | ⟨rfl, hne⟩)
        · exact heq
        · exact absurd rfl hne
    · have hbare : bareChars (d :: ds) = d :: ds := by
        rw [bareChars]
        rintro _ heq
        exact hd (List.cons.inj heq).1
      rw [hbare]
      constructor
      · rintro rfl
        exact .inr ⟨rfl, fun heq => hd (Option.some.inj heq)⟩
      · rintro (heq | ⟨heq, -⟩)
        · exact absurd (List.cons.inj heq).1 hd
        · exact heq

theorem fieldName?_eq_some_iff {name n : String} :
    fieldName? name = some n ↔
      IsWireName n ∧ (name = "_" ++ n ∨ name = n ∧ hasUnderscore n = false) := by
  obtain ⟨cs, rfl⟩ : ∃ cs, n = String.ofList cs := ⟨n.toList, String.ofList_toList.symm⟩
  have hprefixed : name = "_" ++ String.ofList cs ↔ name.toList = '_' :: cs := by
    rw [← String.toList_inj, String.toList_append, String.toList_ofList, String.toList_ofList]
    rfl
  have hplain : name = String.ofList cs ↔ name.toList = cs := by
    rw [← String.toList_inj, String.toList_ofList]
  have hcleaned : fieldName? name =
      if bareChars name.toList = [] ∨ bareChars name.toList = ['i', 'd'] then none
      else if (bareChars name.toList).all isFieldChar then
        some (String.ofList (bareChars name.toList))
      else none := rfl
  have hcs : name = "_" ++ String.ofList cs ∨
      name = String.ofList cs ∧ hasUnderscore (String.ofList cs) = false ↔
        bareChars name.toList = cs := by
    rw [hprefixed, hplain, bareChars_eq_iff, hasUnderscore, String.toList_ofList,
      decide_eq_false_iff_not]
  rw [hcs, hcleaned, isWireName_ofList_iff]
  generalize bareChars name.toList = bare
  constructor
  · intro h
    split at h
    · cases h
    · rename_i hne
      split at h
      · rename_i hall
        have heq : bare = cs := by
          rw [← String.toList_ofList (l := bare), Option.some.inj h, String.toList_ofList]
        exact heq ▸ ⟨⟨hne, hall⟩, rfl⟩
      · cases h
  · rintro ⟨⟨hne, hall⟩, rfl⟩
    rw [if_neg hne, if_pos hall]

theorem append_ne (n : String) : "_" ++ n ≠ n := by
  intro heq
  have hlength := congrArg (fun s => s.toList.length) heq
  rw [String.toList_append, List.length_append] at hlength
  have hone : "_".toList.length = 1 := rfl
  omega

theorem fieldName?_append {n : String} (hn : IsWireName n) : fieldName? ("_" ++ n) = some n :=
  fieldName?_eq_some_iff.2 ⟨hn, .inl rfl⟩

theorem fieldName?_self_iff {n : String} (hn : IsWireName n) :
    fieldName? n = some n ↔ hasUnderscore n = false := by
  rw [fieldName?_eq_some_iff]
  constructor
  · rintro ⟨-, heq | ⟨-, hplain⟩⟩
    · exact absurd heq.symm (append_ne n)
    · exact hplain
  · intro hplain
    exact ⟨hn, .inr ⟨rfl, hplain⟩⟩

/-! ### Entries from behind -/

/-- From behind, a list in order is searched for the greater of two names first. -/
theorem findSome?_reverse_of_increasing {α β : Type} {entries : List (String × α)}
    (h : Increasing entries) {f : String × α → Option β} {a b : String} (hab : a < b)
    (hf : ∀ e ∈ entries, e.1 ≠ a → e.1 ≠ b → f e = none) :
    entries.reverse.findSome? f =
      ((entries.lookup b).bind fun v => f (b, v)).or
        ((entries.lookup a).bind fun v => f (a, v)) := by
  induction entries with
  | nil => rfl
  | cons e rest ih =>
    obtain ⟨name, value⟩ := e
    obtain ⟨hname, hrest⟩ := List.pairwise_cons.1 h
    have hbehind (key : String) (hkey : ¬ name < key) : rest.lookup key = none := by
      rw [List.lookup_eq_none_iff]
      intro e he
      rw [bne_iff_ne]
      rintro rfl
      exact hkey (hname e he)
    rw [List.reverse_cons, List.findSome?_append,
      ih hrest fun e he => hf e (List.mem_cons_of_mem _ he), lookup_cons, lookup_cons]
    by_cases hb : b = name
    · subst hb
      rw [if_pos rfl, if_neg (String.ne_of_lt hab), hbehind b (String.lt_irrefl b),
        hbehind a (String.lt_asymm hab)]
      simp
    · rw [if_neg hb]
      by_cases ha : a = name
      · subst ha
        rw [if_pos rfl, hbehind a (String.lt_irrefl a)]
        simp
      · rw [if_neg ha]
        have hnone : f (name, value) = none :=
          hf (name, value) List.mem_cons_self (Ne.symm ha) (Ne.symm hb)
        simp [hnone]

/-- What an entry sends under a name on the wire. -/
def valueUnder (n : String) (field : String × Value) : Option Value :=
  if fieldName? field.1 = some n then fieldValue? field.2 else none

theorem lookup_filterMap_wireField? (n : String) (entries : List (String × Value)) :
    (entries.filterMap wireField?).lookup ("_" ++ n) = entries.findSome? (valueUnder n) := by
  induction entries with
  | nil => rfl
  | cons e rest ih =>
    rw [List.filterMap_cons, List.findSome?_cons, valueUnder, wireField?]
    cases fieldName? e.1 with
    | none => simpa using ih
    | some m =>
      cases fieldValue? e.2 with
      | none => simpa using ih
      | some v =>
        dsimp only
        rw [lookup_cons]
        by_cases hm : m = n
        · rw [hm, if_pos rfl, if_pos rfl]
        · have hwire : ¬ "_" ++ n = "_" ++ m := by
            rw [String.append_right_inj]
            exact Ne.symm hm
          rw [if_neg hwire, if_neg fun heq => hm (Option.some.inj heq)]
          exact ih

/-! ### What is sent -/

/-- What a map sends for one spelling of a name. -/
def sent? (fields : Fields) (name : String) : Option Value := (fields.get? name).bind fieldValue?

/-- What a map sends under a name on the wire: of the two spellings, the later one that holds a
value. Names that begin with an underscore have only the spelling with one more. -/
def wireValue? (fields : Fields) (n : String) : Option Value :=
  let plain := if hasUnderscore n then none else sent? fields n
  let prefixed := sent? fields ("_" ++ n)
  if n < "_" ++ n then prefixed.or plain else plain.or prefixed

theorem findSome?_valueUnder (fields : Fields) {n : String} (hn : IsWireName n) :
    fields.entries.reverse.findSome? (valueUnder n) = wireValue? fields n := by
  have hplain : ((fields.entries.lookup n).bind fun v => valueUnder n (n, v)) =
      if hasUnderscore n then none else sent? fields n := by
    cases hunderscore : hasUnderscore n with
    | false =>
      have hself := (fieldName?_self_iff hn).2 hunderscore
      simp only [valueUnder, hself]
      rfl
    | true =>
      have hself : ¬ fieldName? n = some n := by
        rw [fieldName?_self_iff hn, hunderscore]
        exact Bool.noConfusion
      simp [valueUnder, hself]
  have hprefixed : ((fields.entries.lookup ("_" ++ n)).bind fun v => valueUnder n ("_" ++ n, v)) =
      sent? fields ("_" ++ n) := by
    simp only [valueUnder, fieldName?_append hn]
    rfl
  have hother (e : String × Value) (he : e.1 ≠ n) (he' : e.1 ≠ "_" ++ n) :
      valueUnder n e = none := by
    rw [valueUnder, if_neg]
    rw [fieldName?_eq_some_iff]
    rintro ⟨-, heq | ⟨heq, -⟩⟩
    · exact he' heq
    · exact he heq
  rw [wireValue?]
  by_cases hlt : n < "_" ++ n
  · rw [if_pos hlt, ← hplain, ← hprefixed]
    exact findSome?_reverse_of_increasing fields.increasing hlt fun e _ => hother e
  · have hgt : "_" ++ n < n := by
      apply Classical.byContradiction
      intro hge
      exact append_ne n (String.le_antisymm (String.not_lt.1 hlt) (String.not_lt.1 hge))
    rw [if_neg hlt, ← hplain, ← hprefixed]
    exact findSome?_reverse_of_increasing fields.increasing hgt fun e _ he he' => hother e he' he

/-- **Fields of a record.** What the event sends under a name comes before what the encoder does. -/
theorem get?_wireFields (persistent fields : Fields) {n : String} (hn : IsWireName n) :
    (wireFields persistent fields).get? ("_" ++ n) =
      (wireValue? fields n).or (wireValue? persistent n) := by
  rw [wireFields, FieldMap.get?_ofList, ← List.filterMap_reverse, lookup_filterMap_wireField?,
    List.reverse_append, List.findSome?_append, findSome?_valueUnder fields hn,
    findSome?_valueUnder persistent hn]

namespace Encoder

variable {encoder : Encoder} {event : Event}

theorem additional_of_record_eq_ok {r : Record} (h : encoder.record event = .ok r) :
    r.additional = wireFields encoder.fields event.fields := by
  rw [record] at h
  split at h
  · cases h
  · cases h
    rfl

theorem exists_record_of_not_blank (h : ¬ Text.blank event.shortMessage = true) :
    ∃ r, encoder.record event = .ok r := ⟨_, if_neg h⟩

theorem exists_encode_of_not_blank (h : ¬ Text.blank event.shortMessage = true) :
    ∃ json, encoder.encode event = .ok json := by
  obtain ⟨r, hrecord⟩ := @exists_record_of_not_blank encoder event h
  refine ⟨r.bytes, ?_⟩
  rw [encode_eq, hrecord]
  rfl

end Encoder

end Gelf
