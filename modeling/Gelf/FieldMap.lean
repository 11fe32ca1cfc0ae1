/-!
# Field maps

Finite maps from names to values, kept as a list in increasing order of names. Names are ordered by
their characters, which is also the order of their UTF-8 octets. The order makes the list unique:
two field maps with the same lookups are equal.
-/

namespace Gelf

/-- The names of a list of entries increase from each to all later ones. -/
def Increasing {α : Type} (entries : List (String × α)) : Prop :=
  entries.Pairwise fun a b => a.1 < b.1

/-- Puts an entry at its place, instead of one with the same name. -/
def insertEntry {α : Type} (name : String) (value : α) :
    List (String × α) → List (String × α)
  | [] => [(name, value)]
  | (n, v) :: rest =>
    if name < n then (name, value) :: (n, v) :: rest
    else if name = n then (name, value) :: rest
    else (n, v) :: insertEntry name value rest

theorem mem_insertEntry {α : Type} {name : String} {value : α} {entries : List (String × α)}
    {a : String × α} (h : a ∈ insertEntry name value entries) :
    a = (name, value) ∨ a ∈ entries := by
  induction entries with
  | nil => simpa [insertEntry] using h
  | cons e rest ih =>
    obtain ⟨n, v⟩ := e
    simp only [insertEntry] at h
    split at h
    · simpa using h
    · split at h <;> simp only [List.mem_cons] at h ⊢
      · grind
      · grind

theorem increasing_insertEntry {α : Type} (name : String) (value : α)
    {entries : List (String × α)} (h : Increasing entries) :
    Increasing (insertEntry name value entries) := by
  induction entries with
  | nil => simp [insertEntry, Increasing]
  | cons e rest ih =>
    obtain ⟨n, v⟩ := e
    obtain ⟨hn, hrest⟩ := List.pairwise_cons.1 h
    simp only [insertEntry]
    split
    · rename_i hlt
      refine List.pairwise_cons.2 ⟨fun a ha => ?_, h⟩
      rcases List.mem_cons.1 ha with rfl | ha
      · exact hlt
      · exact String.lt_trans hlt (hn a ha)
    · rename_i hnlt
      split
      · rename_i heq
        exact List.pairwise_cons.2 ⟨fun a ha => heq ▸ hn a ha, hrest⟩
      · rename_i hne
        refine List.pairwise_cons.2 ⟨fun a ha => ?_, ih hrest⟩
        rcases mem_insertEntry ha with rfl | ha
        · exact Classical.byContradiction fun hge =>
            hne (String.le_antisymm (String.not_lt.1 hge) (String.not_lt.1 hnlt))
        · exact hn a ha

theorem lookup_cons {α : Type} (key name : String) (value : α) (rest : List (String × α)) :
    ((name, value) :: rest).lookup key = if key = name then some value else rest.lookup key := by
  rw [List.lookup_cons]
  by_cases h : key = name
  · simp [h]
  · rw [beq_eq_false_iff_ne.2 h, if_neg h]

theorem lookup_insertEntry {α : Type} (name key : String) (value : α)
    (entries : List (String × α)) :
    (insertEntry name value entries).lookup key =
      if key = name then some value else entries.lookup key := by
  induction entries with
  | nil => rw [insertEntry, lookup_cons]
  | cons e rest ih =>
    obtain ⟨n, v⟩ := e
    simp only [insertEntry]
    split
    · rw [lookup_cons]
    · split
      · rename_i heq
        subst heq
        rw [lookup_cons, lookup_cons]
        split <;> rfl
      · rename_i hne
        rw [lookup_cons, lookup_cons, ih]
        by_cases h : key = n
        · rw [if_pos h, if_pos h, if_neg fun hkey : key = name => hne (hkey.symm.trans h)]
        · rw [if_neg h, if_neg h]

theorem lookup_eq_some_iff_mem {α : Type} {entries : List (String × α)} (h : Increasing entries)
    {name : String} {value : α} : entries.lookup name = some value ↔ (name, value) ∈ entries := by
  induction entries with
  | nil => simp
  | cons e rest ih =>
    obtain ⟨n, v⟩ := e
    obtain ⟨hn, hrest⟩ := List.pairwise_cons.1 h
    by_cases heq : name = n
    · subst heq
      have hnot : (name, value) ∉ rest := by
        intro hmem
        exact String.lt_irrefl name (hn _ hmem)
      simp [hnot, eq_comm]
    · simp [lookup_cons, heq, ih hrest]

/-- A name behind all others goes to the end. -/
theorem insertEntry_of_forall_lt {α : Type} {name : String} (value : α)
    {entries : List (String × α)} (h : ∀ e ∈ entries, e.1 < name) :
    insertEntry name value entries = entries ++ [(name, value)] := by
  induction entries with
  | nil => rfl
  | cons e rest ih =>
    have hlt := h e List.mem_cons_self
    have hne : name ≠ e.1 := by
      intro heq
      exact String.lt_irrefl _ (heq ▸ hlt)
    rw [insertEntry, if_neg (String.lt_asymm hlt), if_neg hne,
      ih fun e' he => h e' (List.mem_cons_of_mem e he)]
    rfl

/-- Increasing lists with the same entries are equal. -/
theorem eq_of_increasing_of_mem_iff {α : Type} {as bs : List (String × α)} (ha : Increasing as)
    (hb : Increasing bs) (h : ∀ e, e ∈ as ↔ e ∈ bs) : as = bs := by
  induction as generalizing bs with
  | nil =>
    cases bs with
    | nil => rfl
    | cons b bs => simpa using (h b).2 List.mem_cons_self
  | cons a as ih =>
    cases bs with
    | nil => simpa using (h a).1 List.mem_cons_self
    | cons b bs =>
      obtain ⟨ha₁, ha₂⟩ := List.pairwise_cons.1 ha
      obtain ⟨hb₁, hb₂⟩ := List.pairwise_cons.1 hb
      have hab : a = b := by
        rcases List.mem_cons.1 ((h a).1 List.mem_cons_self) with hab | hab
        · exact hab
        · rcases List.mem_cons.1 ((h b).2 List.mem_cons_self) with hba | hba
          · exact hba.symm
          · exact absurd (ha₁ b hba) (String.lt_asymm (hb₁ a hab))
      subst hab
      refine congrArg (a :: ·) (ih ha₂ hb₂ fun e => ⟨fun he => ?_, fun he => ?_⟩)
      · rcases List.mem_cons.1 ((h e).1 (List.mem_cons_of_mem a he)) with rfl | he'
        · exact absurd (ha₁ e he) (String.lt_irrefl _)
        · exact he'
      · rcases List.mem_cons.1 ((h e).2 (List.mem_cons_of_mem a he)) with rfl | he'
        · exact absurd (hb₁ e he) (String.lt_irrefl _)
        · exact he'

structure FieldMap (α : Type) where
  entries : List (String × α)
  increasing : Increasing entries

namespace FieldMap

variable {α : Type}

def empty : FieldMap α := ⟨[], List.Pairwise.nil⟩

def insert (m : FieldMap α) (name : String) (value : α) : FieldMap α :=
  ⟨insertEntry name value m.entries, increasing_insertEntry name value m.increasing⟩

def get? (m : FieldMap α) (name : String) : Option α := m.entries.lookup name

/-- Sets the values of names, one after another, so the last value of a name stays. -/
def ofList (pairs : List (String × α)) : FieldMap α :=
  pairs.foldl (fun m p => m.insert p.1 p.2) empty

def size (m : FieldMap α) : Nat := m.entries.length

instance : Inhabited (FieldMap α) := ⟨empty⟩

instance [DecidableEq α] : DecidableEq (FieldMap α) := fun a b =>
  decidable_of_iff (a.entries = b.entries)
    ⟨fun h => by cases a; cases b; cases h; rfl, fun h => h ▸ rfl⟩

@[simp]
theorem get?_empty (key : String) : (empty : FieldMap α).get? key = none := rfl

@[simp]
theorem get?_insert (m : FieldMap α) (name key : String) (value : α) :
    (m.insert name value).get? key = if key = name then some value else m.get? key :=
  lookup_insertEntry name key value m.entries

theorem get?_eq_some_iff {m : FieldMap α} {name : String} {value : α} :
    m.get? name = some value ↔ (name, value) ∈ m.entries :=
  lookup_eq_some_iff_mem m.increasing

@[ext]
theorem ext {a b : FieldMap α} (h : ∀ name, a.get? name = b.get? name) : a = b := by
  have hentries : a.entries = b.entries :=
    eq_of_increasing_of_mem_iff a.increasing b.increasing fun e => by
      rw [← get?_eq_some_iff, ← get?_eq_some_iff, h]
  cases a
  cases b
  cases hentries
  rfl

/-- The last value of a name stays. -/
theorem get?_ofList (pairs : List (String × α)) (key : String) :
    (ofList pairs).get? key = pairs.reverse.lookup key := by
  have hfold (m : FieldMap α) : (pairs.foldl (fun m p => m.insert p.1 p.2) m).get? key =
      (pairs.reverse.lookup key).or (m.get? key) := by
    induction pairs generalizing m with
    | nil => simp
    | cons p rest ih =>
      obtain ⟨name, value⟩ := p
      rw [List.foldl_cons, ih, get?_insert, List.reverse_cons, List.lookup_append, lookup_cons,
        Option.or_assoc]
      split <;> simp
  rw [ofList, hfold, get?_empty, Option.or_none]

theorem mem_of_get?_ofList {pairs : List (String × α)} {key : String} {value : α}
    (h : (ofList pairs).get? key = some value) : (key, value) ∈ pairs := by
  rw [get?_ofList, List.lookup_eq_some_iff] at h
  obtain ⟨before, behind, heq, -⟩ := h
  rw [← List.mem_reverse, heq]
  exact List.mem_append_right before List.mem_cons_self

/-- Entries that continue the order are put behind the ones that are there. -/
theorem entries_foldl_insert {m : FieldMap α} {pairs : List (String × α)}
    (h : Increasing (m.entries ++ pairs)) :
    (pairs.foldl (fun m p => m.insert p.1 p.2) m).entries = m.entries ++ pairs := by
  induction pairs generalizing m with
  | nil => exact (List.append_nil _).symm
  | cons p rest ih =>
    have hinsert : (m.insert p.1 p.2).entries = m.entries ++ [p] :=
      insertEntry_of_forall_lt p.2 fun e he =>
        (List.pairwise_append.1 h).2.2 e he p List.mem_cons_self
    have hmore : m.entries ++ p :: rest = (m.insert p.1 p.2).entries ++ rest := by
      rw [hinsert, List.append_assoc]
      rfl
    rw [List.foldl_cons, ih (hmore ▸ h), hmore]

end FieldMap

end Gelf
