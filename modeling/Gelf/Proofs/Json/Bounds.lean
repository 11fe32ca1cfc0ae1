import Gelf.Json.Reader

/-!
# What readers give

Whatever octets a reader of values is given, the value it takes off them has its members in order at
every depth and is no deeper than the reader goes. The loops over items and members only pass on
what is true of each part, so they are treated for any property.
-/

namespace Gelf.Json

/-! ### Values within a depth -/

/-- A value with its members in order, and with at most `d` arrays and objects inside each other. -/
structure Value.IsWithin (d : Nat) (v : Value) : Prop where
  ordered : v.Ordered
  depth_le : v.depth ≤ d

namespace Value

theorem allOrdered_of_forall {vs : List Value} (h : ∀ v ∈ vs, v.Ordered) : AllOrdered vs := by
  induction vs with
  | nil => trivial
  | cons v vs ih => exact ⟨h v List.mem_cons_self, ih fun w hw => h w (List.mem_cons_of_mem v hw)⟩

theorem itemsDepth_le {vs : List Value} {d : Nat} (h : ∀ v ∈ vs, v.depth ≤ d) :
    itemsDepth vs ≤ d := by
  induction vs with
  | nil => exact Nat.zero_le d
  | cons v vs ih =>
    rw [itemsDepth]
    exact Nat.max_le.2 ⟨h v List.mem_cons_self, ih fun w hw => h w (List.mem_cons_of_mem v hw)⟩

theorem membersOrdered_of_forall {ms : List (String × Value)} (h : ∀ m ∈ ms, m.2.Ordered) :
    MembersOrdered ms := by
  induction ms with
  | nil => trivial
  | cons m ms ih => exact ⟨h m List.mem_cons_self, ih fun n hn => h n (List.mem_cons_of_mem m hn)⟩

theorem membersDepth_le {ms : List (String × Value)} {d : Nat} (h : ∀ m ∈ ms, m.2.depth ≤ d) :
    membersDepth ms ≤ d := by
  induction ms with
  | nil => exact Nat.zero_le d
  | cons m ms ih =>
    rw [membersDepth]
    exact Nat.max_le.2 ⟨h m List.mem_cons_self, ih fun n hn => h n (List.mem_cons_of_mem m hn)⟩

variable {d : Nat}

theorem isWithin_array {vs : List Value} (h : ∀ v ∈ vs, v.IsWithin d) :
    (Value.array vs).IsWithin (d + 1) where
  ordered := allOrdered_of_forall fun v hv => (h v hv).ordered
  depth_le := by
    have hle := itemsDepth_le fun v hv => (h v hv).depth_le
    rw [depth]
    omega

theorem isWithin_ofFields {m : FieldMap Value} (h : ∀ e ∈ m.entries, e.2.IsWithin d) :
    (Value.ofFields m).IsWithin (d + 1) where
  ordered := ⟨m.increasing, membersOrdered_of_forall fun e he => (h e he).ordered⟩
  depth_le := by
    have hle := membersDepth_le fun e he => (h e he).depth_le
    rw [ofFields, depth]
    omega

end Value

theorem forall_mem_insert {α : Type} {P : String × α → Prop} {m : FieldMap α}
    (hm : ∀ e ∈ m.entries, P e) {name : String} {v : α} (hv : P (name, v)) :
    ∀ e ∈ (m.insert name v).entries, P e := by
  intro e he
  rcases mem_insertEntry he with rfl | he
  · exact hv
  · exact hm e he

/-! ### Loops -/

/-- Whatever the reader takes off a text has the property. -/
structure Gives {α : Type} (reader : Reader α) (P : α → Prop) : Prop where
  of_run : ∀ {s a t}, reader.run s = .ok (a, t) → P a

theorem exists_of_map_eq_ok {ε α β : Type} {x : Except ε α} {f : α → β} {b : β}
    (h : x.map f = .ok b) : ∃ a, x = .ok a ∧ f a = b := by
  cases x with
  | error e => cases h
  | ok a => exact ⟨a, rfl, Except.ok.inj h⟩

theorem exists_of_bind_eq_ok {ε α β : Type} {x : Except ε α} {f : α → Except ε β} {b : β}
    (h : x >>= f = .ok b) : ∃ a, x = .ok a ∧ f a = .ok b := by
  cases x with
  | error e => cases h
  | ok a => exact ⟨a, rfl, h⟩

theorem Gives.map {α β : Type} {reader : Reader α} {P : α → Prop} {Q : β → Prop}
    (h : Gives reader P) {f : α → β} (hf : ∀ a, P a → Q (f a)) : Gives (reader.map f) Q where
  of_run hrun := by
    obtain ⟨⟨a, t⟩, hrun, heq⟩ := exists_of_map_eq_ok hrun
    cases heq
    exact hf a (h.of_run hrun)

theorem gives_true {α : Type} (reader : Reader α) : Gives reader fun _ => True where
  of_run _ := trivial

theorem Gives.of_readAll {α : Type} {reader : Reader α} {P : α → Prop} (h : Gives reader P)
    {s : List UInt8} {a : α} (hread : reader.readAll s = .ok a) : P a := by
  unfold Reader.readAll at hread
  split at hread
  · cases hread
  · rename_i hrun
    split at hread
    · cases hread
      exact h.of_run hrun
    · cases hread

section Items

variable {α : Type} {item : Reader α} {P : α → Prop}

theorem Gives.itemsFrom (h : Gives item P) {taken as : List α} {s r : List UInt8}
    (htaken : ∀ a ∈ taken, P a) (hrun : itemsFrom item taken s = .ok (as, r)) : ∀ a ∈ as, P a := by
  fun_induction Json.itemsFrom item taken s with
  | case1 => cases hrun
  | case2 =>
    cases hrun
    intro a ha
    exact htaken a (List.mem_reverse.1 ha)
  | case3 => cases hrun
  | case4 => cases hrun
  | case5 => cases hrun
  | case6 =>
    rename_i hitem _ _ _ ih
    refine ih ?_ hrun
    intro a ha
    rcases List.mem_cons.1 ha with rfl | ha
    · exact h.of_run hitem
    · exact htaken a ha
  | case7 => cases hrun

theorem Gives.items (h : Gives item P) {as : List α} {s r : List UInt8}
    (hrun : items item s = .ok (as, r)) : ∀ a ∈ as, P a := by
  unfold Json.items at hrun
  split at hrun
  · cases hrun
  · split at hrun
    · cases hrun
      intro a ha
      cases ha
    · split at hrun
      · cases hrun
      · rename_i hitem
        refine h.itemsFrom (fun a ha => ?_) hrun
        rw [List.mem_singleton.1 ha]
        exact h.of_run hitem

end Items

/-- Each member that is taken in keeps the invariant. -/
def Keeps {σ : Type} (take : Take σ) (I : σ → Prop) : Prop :=
  ∀ state name reader, I state → take state name = .ok reader → Gives reader I

section Members

variable {σ : Type} {take : Take σ} {I : σ → Prop} {state state' : σ} {s r : List UInt8}

theorem Keeps.member (h : Keeps take I) (hstate : I state)
    (hrun : member take state s = .ok (state', r)) : I state' := by
  unfold Json.member at hrun
  split at hrun
  · cases hrun
  · split at hrun
    · cases hrun
    · rename_i htake
      split at hrun
      · cases hrun
      · exact (h _ _ _ hstate htake).of_run hrun

theorem Keeps.membersFrom (h : Keeps take I) (hstate : I state)
    (hrun : membersFrom take state s = .ok (state', r)) : I state' := by
  fun_induction Json.membersFrom take state s with
  | case1 => cases hrun
  | case2 =>
    cases hrun
    exact hstate
  | case3 => cases hrun
  | case4 => cases hrun
  | case5 =>
    rename_i hmember _ _ _ _ ih
    exact ih (h.member hstate hmember) hrun
  | case6 => cases hrun
  | case7 => cases hrun
  | case8 => cases hrun

theorem Keeps.members (h : Keeps take I) (hstate : I state)
    (hrun : members take state s = .ok (state', r)) : I state' := by
  unfold Json.members at hrun
  split at hrun
  · cases hrun
  · split at hrun
    · cases hrun
      exact hstate
    · split at hrun
      · split at hrun
        · cases hrun
        · rename_i hmember
          exact h.membersFrom (h.member hstate hmember) hrun
      · cases hrun

end Members

/-! ### Values -/

/-- How a value is read behind its blanks, by the octet it begins with. -/
inductive Dispatch (inner : Option (Reader Value)) : List UInt8 → Value → List UInt8 → Prop
  | null {s r : List UInt8} (h : literal ['u', 'l', 'l'] s = .ok r) :
    Dispatch inner (octet 'n' :: s) .null r
  | true {s r : List UInt8} (h : literal ['r', 'u', 'e'] s = .ok r) :
    Dispatch inner (octet 't' :: s) (.bool true) r
  | false {s r : List UInt8} (h : literal ['a', 'l', 's', 'e'] s = .ok r) :
    Dispatch inner (octet 'f' :: s) (.bool false) r
  | negative {n : Number} {s r : List UInt8} (h : number true s = .ok (n, r)) :
    Dispatch inner (octet '-' :: s) (.number n) r
  | number {n : Number} {s r : List UInt8} (h : number false s = .ok (n, r)) :
    Dispatch inner s (.number n) r
  | string {text : String} {s r : List UInt8} (h : string s = .ok (text, r)) :
    Dispatch inner (octet '"' :: s) (.string text) r
  | array {item : Reader Value} {vs : List Value} {s r : List UInt8} (hinner : inner = some item)
    (h : items item s = .ok (vs, r)) : Dispatch inner (octet '[' :: s) (.array vs) r
  | object {item : Reader Value} {m : FieldMap Value} {s r : List UInt8}
    (hinner : inner = some item)
    (h : members (fun m name => .ok (item.map fun v => FieldMap.insert m name v))
      FieldMap.empty s = .ok (m, r)) :
    Dispatch inner (octet '{' :: s) (.ofFields m) r

theorem dispatch_of_valueRun {inner : Option (Reader Value)} {s r : List UInt8} {v : Value}
    (h : valueRun inner s = .ok (v, r)) : Dispatch inner (skipSpace s) v r := by
  unfold valueRun at h
  cases hskip : skipSpace s with
  | nil =>
    rw [hskip] at h
    cases h
  | cons b q =>
    rw [hskip] at h
    dsimp only at h
    by_cases hnull : b = octet 'n'
    · rw [if_pos hnull] at h
      obtain ⟨t, hliteral, heq⟩ := exists_of_map_eq_ok h
      cases heq
      exact hnull ▸ .null hliteral
    rw [if_neg hnull] at h
    by_cases htrue : b = octet 't'
    · rw [if_pos htrue] at h
      obtain ⟨t, hliteral, heq⟩ := exists_of_map_eq_ok h
      cases heq
      exact htrue ▸ .true hliteral
    rw [if_neg htrue] at h
    by_cases hfalse : b = octet 'f'
    · rw [if_pos hfalse] at h
      obtain ⟨t, hliteral, heq⟩ := exists_of_map_eq_ok h
      cases heq
      exact hfalse ▸ .false hliteral
    rw [if_neg hfalse] at h
    by_cases hminus : b = octet '-'
    · rw [if_pos hminus] at h
      obtain ⟨p, hnumber, heq⟩ := exists_of_map_eq_ok h
      cases heq
      exact hminus ▸ .negative hnumber
    rw [if_neg hminus] at h
    by_cases hdigit : isDigit b = true
    · rw [if_pos hdigit] at h
      obtain ⟨p, hnumber, heq⟩ := exists_of_map_eq_ok h
      cases heq
      exact .number hnumber
    rw [if_neg hdigit] at h
    by_cases hquote : b = octet '"'
    · rw [if_pos hquote] at h
      obtain ⟨p, hstring, heq⟩ := exists_of_map_eq_ok h
      cases heq
      exact hquote ▸ .string hstring
    rw [if_neg hquote] at h
    by_cases hbracket : b = octet '['
    · rw [if_pos hbracket] at h
      cases inner with
      | none => cases h
      | some item =>
        obtain ⟨p, hitems, heq⟩ := exists_of_map_eq_ok h
        cases heq
        exact hbracket ▸ .array rfl hitems
    rw [if_neg hbracket] at h
    by_cases hbrace : b = octet '{'
    · rw [if_pos hbrace] at h
      cases inner with
      | none => cases h
      | some item =>
        obtain ⟨p, hmembers, heq⟩ := exists_of_map_eq_ok h
        cases heq
        exact hbrace ▸ .object rfl hmembers
    · rw [if_neg hbrace] at h
      cases h

theorem isWithin_of_valueRun {inner : Option (Reader Value)} {d : Nat}
    (hinner : ∀ item ∈ inner, ∃ e, d = e + 1 ∧ Gives item (Value.IsWithin e))
    {s t : List UInt8} {v : Value} (h : valueRun inner s = .ok (v, t)) : v.IsWithin d := by
  have hdispatch := dispatch_of_valueRun h
  generalize skipSpace s = q at hdispatch
  cases hdispatch with
  | array hitem hitems =>
    obtain ⟨e, rfl, hgives⟩ := hinner _ hitem
    exact Value.isWithin_array (hgives.items hitems)
  | @object item _ _ _ hitem hmembers =>
    obtain ⟨e, rfl, hgives⟩ := hinner _ hitem
    have hkeeps : Keeps (fun m name => .ok (item.map fun v => FieldMap.insert m name v))
        fun m => ∀ e' ∈ m.entries, e'.2.IsWithin e := by
      rintro m name reader hm ⟨⟩
      exact hgives.map fun v hv => forall_mem_insert hm hv
    exact Value.isWithin_ofFields (hkeeps.members (fun _ he => by cases he) hmembers)
  | _ => exact ⟨trivial, Nat.zero_le d⟩

/-- **Bounds.** A reader of values gives values within its depth. -/
theorem gives_value (d : Nat) : Gives (value d) (Value.IsWithin d) := by
  induction d with
  | zero =>
    constructor
    intro s v t h
    have hrun : valueRun none s = .ok (v, t) := h
    exact isWithin_of_valueRun (fun item hitem => by cases hitem) hrun
  | succ d ih =>
    constructor
    intro s v t h
    have hrun : valueRun (some (value d)) s = .ok (v, t) := h
    refine isWithin_of_valueRun (fun item hitem => ⟨d, rfl, ?_⟩) hrun
    cases hitem
    exact ih

end Gelf.Json
