import Gelf.Proofs.Json.Printed
import Gelf.Proofs.Record.Steps

/-!
# The schema of records

Which members make a record, and which record they make. A slot takes one value of its kind, and is
strict about it: a second one is refused even when the first was `null`. Any other name is a field
whose last value stays. Once a prefix of the members was taken in, the draft is a function of what
the prefix gives to each slot, so a step of the reader is an update at one slot.
-/

namespace Gelf

open Json (Integer Tree Value memberValues?)
open Json.Grammar (IsText)

/-- The values that a slot takes. Where it may be empty, `null` leaves it so. -/
def Slot.Accepts : Slot → Value → Prop
  | .version, v | .host, v | .shortMessage, v => ∃ s, v = .string s
  | .fullMessage, v => v = .null ∨ ∃ s, v = .string s
  | .timestamp, v => v = .null ∨ ∃ n, v = .number n
  | .level, v => v = .null ∨ ∃ n : Integer, v = .number (.integer n) ∧ 0 ≤ n.val ∧ n.val ≤ 255

theorem Slot.name_inj {slot slot' : Slot} : slot.name = slot'.name ↔ slot = slot' := by
  constructor
  · intro h
    have hsome := ofName?_name slot
    rw [h, ofName?_name] at hsome
    exact (Option.some.inj hsome).symm
  · rintro rfl
    rfl

theorem Slot.ofName?_eq_some_iff {name : String} {slot : Slot} :
    ofName? name = some slot ↔ name = slot.name := by
  constructor
  · intro h
    have hname := List.find?_some h
    exact (of_decide_eq_true hname).symm
  · rintro rfl
    exact ofName?_name slot

theorem Slot.ne_name {name : String} (h : ofName? name = none) (slot : Slot) :
    name ≠ slot.name := by
  rintro rfl
  rw [ofName?_name] at h
  cases h

namespace Record

/-- Members of which none is refused. -/
structure Allowed (ms : List (String × Value)) : Prop where
  once : ∀ slot : Slot, (ms.map Prod.fst).count slot.name ≤ 1
  accepts : ∀ (slot : Slot) (v : Value), (slot.name, v) ∈ ms → slot.Accepts v

/-- Members that make a record. -/
structure Fits (ms : List (String × Value)) : Prop extends Allowed ms where
  required : ∀ slot ∈ [Slot.version, .host, .shortMessage], ∃ v, (slot.name, v) ∈ ms

/-- What a record has of its members: the value of each slot, and of any other name the last value
it has. -/
structure Holds (r : Record) (ms : List (String × Value)) : Prop where
  version : ms.lookup Slot.version.name = some (.string r.version)
  host : ms.lookup Slot.host.name = some (.string r.host)
  shortMessage : ms.lookup Slot.shortMessage.name = some (.string r.shortMessage)
  fullMessage : r.fullMessage = (ms.lookup Slot.fullMessage.name).bind Value.string?
  timestamp : r.timestamp.map (·.val) = (ms.lookup Slot.timestamp.name).bind Value.float?
  level : r.level.map (fun n => (n.toNat : Int)) = (ms.lookup Slot.level.name).bind Value.integer?
  additional : ∀ name, r.additional.get? name =
    if Slot.ofName? name = none then ms.reverse.lookup name else none

/-! ### Drafts of slots -/

/-- The draft in which slots have the given values. -/
def Draft.of (given : Slot → Option Value) (additional : Json.Fields) : Draft where
  version := (given .version).bind Value.string?
  host := (given .host).bind Value.string?
  shortMessage := (given .shortMessage).bind Value.string?
  fullMessage := (given .fullMessage).bind (Value.optional? Value.string?)
  timestamp := (given .timestamp).bind (Value.optional? Value.finite?)
  level := (given .level).bind (Value.optional? Value.octet?)
  additional

section Given

variable {given : Slot → Option Value} {additional : Json.Fields} {slot : Slot} {v : Value}

theorem fill?_of (h : slot.Accepts v) :
    (Draft.of given additional).fill? slot v =
      some (Draft.of (Function.update given slot (some v)) additional) := by
  cases slot
  case version | host | shortMessage =>
    obtain ⟨s, rfl⟩ := h
    rfl
  case fullMessage =>
    rcases h with rfl | ⟨s, rfl⟩ <;> rfl
  case timestamp =>
    rcases h with rfl | ⟨n, rfl⟩
    · rfl
    · simp [Draft.fill?, Draft.of, Value.optional?, Value.finite?_number, Function.update]
  case level =>
    rcases h with rfl | ⟨n, rfl, hn⟩
    · rfl
    · simp [Draft.fill?, Draft.of, Value.optional?, Value.octet?_integer hn, Function.update]

theorem accepts_of_fill? {draft draft' : Draft} (h : draft.fill? slot v = some draft') :
    slot.Accepts v := by
  have hstring {α : Type} {f : String → α} {a : α} (h : v.string?.map f = some a) :
      ∃ s, v = .string s := by
    cases v with
    | string s => exact ⟨s, rfl⟩
    | _ => cases h
  cases slot with
  | version => exact hstring h
  | host => exact hstring h
  | shortMessage => exact hstring h
  | fullMessage =>
    cases v with
    | null => exact .inl rfl
    | string s => exact .inr ⟨s, rfl⟩
    | _ => cases h
  | timestamp =>
    cases v with
    | null => exact .inl rfl
    | number n => exact .inr ⟨n, rfl⟩
    | _ => cases h
  | level =>
    cases v with
    | null => exact .inl rfl
    | number n =>
      cases n with
      | real x => cases h
      | integer n =>
        refine .inr ⟨n, rfl, ?_⟩
        by_contra hn
        have hnone : (Value.number (.integer n)).octet? = none := if_neg hn
        simp [Draft.fill?, Value.optional?, hnone] at h
    | _ => cases h

theorem has_of (hgiven : ∀ v ∈ given slot, slot.Accepts v) :
    (Draft.of given additional).has slot = (given slot).isSome := by
  cases hslot : given slot with
  | none => cases slot <;> simp only [Draft.has, Draft.of, hslot] <;> rfl
  | some v =>
    have haccepts := hgiven v hslot
    cases slot <;> simp only [Draft.has, Draft.of, hslot]
    case version | host | shortMessage =>
      obtain ⟨s, rfl⟩ := haccepts
      rfl
    case fullMessage =>
      rcases haccepts with rfl | ⟨s, rfl⟩ <;> rfl
    case timestamp =>
      rcases haccepts with rfl | ⟨n, rfl⟩
      · rfl
      · simp [Value.optional?, Value.finite?_number]
    case level =>
      rcases haccepts with rfl | ⟨n, rfl, hn⟩
      · rfl
      · simp [Value.optional?, Value.octet?_integer hn]

/-- A slot takes a value when it has none and the value is of its kind. -/
theorem step_of_eq_some_iff (hgiven : ∀ v ∈ given slot, slot.Accepts v) {draft : Draft} :
    (Draft.of given additional).step (slot.name, v) = some draft ↔
      given slot = none ∧ slot.Accepts v ∧
        draft = Draft.of (Function.update given slot (some v)) additional := by
  rw [Draft.step_slot _ (Slot.ofName?_name slot), has_of hgiven]
  constructor
  · intro h
    split at h
    · cases h
    · rename_i hempty
      have haccepts := accepts_of_fill? h
      rw [fill?_of haccepts] at h
      cases h
      exact ⟨Option.not_isSome_iff_eq_none.1 hempty, haccepts, rfl⟩
  · rintro ⟨hempty, haccepts, rfl⟩
    rw [hempty, fill?_of haccepts]
    rfl

end Given

/-! ### Members taken in -/

/-- What the members give to each slot. -/
def given (ms : List (String × Value)) : Slot → Option Value := fun slot => ms.lookup slot.name

/-- The members that have the name of no slot. -/
def others (ms : List (String × Value)) : List (String × Value) :=
  ms.filter fun m => (Slot.ofName? m.1).isNone

section Append

variable {ms : List (String × Value)} {slot : Slot} {name : String} {v : Value}

theorem lookup_eq_none_iff_count :
    ms.lookup name = none ↔ (ms.map Prod.fst).count name = 0 := by
  rw [List.lookup_eq_none_iff, List.count_eq_zero, List.mem_map]
  constructor
  · rintro h ⟨m, hm, rfl⟩
    simpa using h m hm
  · intro h m hm
    simpa using fun heq : name = m.1 => h ⟨m, hm, heq.symm⟩

theorem mem_of_lookup (h : ms.lookup name = some v) : (name, v) ∈ ms := by
  obtain ⟨before, behind, rfl, -⟩ := List.lookup_eq_some_iff.1 h
  exact List.mem_append_right before List.mem_cons_self

theorem Allowed.given_accepts (h : Allowed ms) (slot : Slot) :
    ∀ v ∈ given ms slot, slot.Accepts v :=
  fun v hv => h.accepts slot v (mem_of_lookup hv)

theorem count_append_single (key : String) :
    ((ms ++ [(name, v)]).map Prod.fst).count key =
      (ms.map Prod.fst).count key + if name = key then 1 else 0 := by
  rw [List.map_append, List.count_append, List.map_singleton, List.count_singleton]
  simp only [beq_iff_eq]

theorem allowed_append_slot : Allowed (ms ++ [(slot.name, v)]) ↔
    Allowed ms ∧ given ms slot = none ∧ slot.Accepts v := by
  constructor
  · intro h
    refine ⟨⟨fun slot' => ?_, fun slot' w hw => ?_⟩, ?_, ?_⟩
    · have honce := h.once slot'
      rw [count_append_single] at honce
      omega
    · exact h.accepts slot' w (List.mem_append_left _ hw)
    · have honce := h.once slot
      rw [count_append_single, if_pos rfl] at honce
      exact lookup_eq_none_iff_count.2 (by omega)
    · exact h.accepts slot v (List.mem_append_right _ (List.mem_singleton_self _))
  · rintro ⟨h, hempty, haccepts⟩
    refine ⟨fun slot' => ?_, fun slot' w hw => ?_⟩
    · rw [count_append_single]
      by_cases heq : slot.name = slot'.name
      · rw [if_pos heq, ← heq, lookup_eq_none_iff_count.1 hempty]
      · rw [if_neg heq]
        exact h.once slot'
    · rcases List.mem_append.1 hw with hw | hw
      · exact h.accepts slot' w hw
      · obtain ⟨hname, rfl⟩ := Prod.mk.inj (List.mem_singleton.1 hw)
        rw [Slot.name_inj.1 hname]
        exact haccepts

theorem allowed_append_other (hname : Slot.ofName? name = none) :
    Allowed (ms ++ [(name, v)]) ↔ Allowed ms := by
  have hne := Slot.ne_name hname
  constructor
  · intro h
    refine ⟨fun slot => ?_, fun slot w hw => h.accepts slot w (List.mem_append_left _ hw)⟩
    have honce := h.once slot
    rwa [count_append_single, if_neg (hne slot)] at honce
  · intro h
    refine ⟨fun slot => ?_, fun slot w hw => ?_⟩
    · rw [count_append_single, if_neg (hne slot)]
      exact h.once slot
    · rcases List.mem_append.1 hw with hw | hw
      · exact h.accepts slot w hw
      · exact absurd (Prod.mk.inj (List.mem_singleton.1 hw)).1.symm (hne slot)

theorem given_append_slot (hempty : given ms slot = none) :
    given (ms ++ [(slot.name, v)]) = Function.update (given ms) slot (some v) := by
  funext slot'
  show (ms ++ [(slot.name, v)]).lookup slot'.name = _
  rw [List.lookup_append, lookup_cons]
  by_cases heq : slot' = slot
  · subst heq
    rw [if_pos rfl, Function.update_self, show ms.lookup slot'.name = none from hempty]
    rfl
  · rw [if_neg fun hname => heq (Slot.name_inj.1 hname), Function.update_of_ne heq]
    exact Option.or_none

theorem given_append_other (hname : Slot.ofName? name = none) :
    given (ms ++ [(name, v)]) = given ms := by
  funext slot
  show (ms ++ [(name, v)]).lookup slot.name = _
  rw [List.lookup_append, lookup_cons, if_neg (Slot.ne_name hname slot).symm]
  exact Option.or_none

end Append

/-- **Steps.** The members are taken in when none of them is refused, and then only what they give
to the slots and to other names matters. -/
theorem foldlM_step_eq_some_iff (ms : List (String × Value)) {draft : Draft} :
    ms.foldlM Draft.step {} = some draft ↔
      Allowed ms ∧ draft = Draft.of (given ms) (FieldMap.ofList (others ms)) := by
  -- The induction takes members off the end: a step sees everything that stands before it.
  induction ms using List.reverseRecOn generalizing draft with
  | nil =>
    constructor
    · intro h
      cases h
      exact ⟨⟨fun _ => Nat.zero_le 1, fun _ _ hv => by cases hv⟩, rfl⟩
    · rintro ⟨-, rfl⟩
      rfl
  | append_singleton ms m ih =>
    obtain ⟨name, v⟩ := m
    have hfold : (ms ++ [(name, v)]).foldlM Draft.step {} =
        (ms.foldlM Draft.step {}).bind fun draft => draft.step (name, v) := by
      rw [List.foldlM_append]
      simp only [List.foldlM_cons, List.foldlM_nil, bind_pure]
      rfl
    rw [hfold, Option.bind_eq_some_iff]
    cases hname : Slot.ofName? name with
    | none =>
      have hothers : FieldMap.ofList (others (ms ++ [(name, v)])) =
          (FieldMap.ofList (others ms)).insert name v := by
        rw [others, List.filter_append, List.filter_cons_of_pos (by rw [hname]; rfl),
          List.filter_nil, FieldMap.ofList, List.foldl_append]
        rfl
      rw [allowed_append_other hname, given_append_other hname, hothers]
      constructor
      · rintro ⟨before, hbefore, hstep⟩
        obtain ⟨hallowed, rfl⟩ := ih.1 hbefore
        rw [Draft.step_other _ hname] at hstep
        cases hstep
        exact ⟨hallowed, rfl⟩
      · rintro ⟨hallowed, rfl⟩
        exact ⟨_, ih.2 ⟨hallowed, rfl⟩, Draft.step_other _ hname⟩
    | some slot =>
      obtain rfl := Slot.ofName?_eq_some_iff.1 hname
      have hothers : others (ms ++ [(slot.name, v)]) = others ms := by
        rw [others, List.filter_append,
          List.filter_cons_of_neg (by rw [hname]; exact Bool.false_ne_true), List.filter_nil,
          List.append_nil]
        rfl
      rw [allowed_append_slot, hothers]
      constructor
      · rintro ⟨before, hbefore, hstep⟩
        obtain ⟨hallowed, rfl⟩ := ih.1 hbefore
        obtain ⟨hempty, haccepts, rfl⟩ :=
          (step_of_eq_some_iff (hallowed.given_accepts slot)).1 hstep
        exact ⟨⟨hallowed, hempty, haccepts⟩, by rw [given_append_slot hempty]⟩
      · rintro ⟨⟨hallowed, hempty, haccepts⟩, rfl⟩
        refine ⟨_, ih.2 ⟨hallowed, rfl⟩, ?_⟩
        rw [given_append_slot hempty]
        exact (step_of_eq_some_iff (hallowed.given_accepts slot)).2 ⟨hempty, haccepts, rfl⟩

/-! ### Records -/

theorem string?_eq_some_iff {v : Value} {s : String} : v.string? = some s ↔ v = .string s := by
  cases v <;> simp [Value.string?]

theorem bind_string?_eq_some_iff {o : Option Value} {s : String} :
    o.bind Value.string? = some s ↔ o = some (.string s) := by
  cases o with
  | none => exact ⟨fun h => (by cases h), fun h => (by cases h)⟩
  | some v => rw [Option.bind_some, string?_eq_some_iff, Option.some_inj]

theorem join_bind_optional? {α : Type} {f : Value → Option α} (hnull : f .null = none)
    (o : Option Value) : (o.bind (Value.optional? f)).join = o.bind f := by
  have hjoin (o : Option α) : (o.map some).join = o := by cases o <;> rfl
  cases o with
  | none => rfl
  | some v =>
    cases v with
    | null => exact hnull.symm
    | _ => exact hjoin _

theorem map_val_finite? (o : Option Value) :
    (o.bind Value.finite?).map (·.val) = o.bind Value.float? := by
  cases o with
  | none => rfl
  | some v =>
    cases v with
    | number n =>
      rw [Option.bind_some, Option.bind_some, Value.finite?_number]
      rfl
    | _ => rfl

theorem map_toNat_octet? {v : Value} (h : Slot.level.Accepts v) :
    v.octet?.map (fun n => (n.toNat : Int)) = v.integer? := by
  rcases h with rfl | ⟨n, rfl, hn⟩
  · rfl
  · rw [Value.octet?_integer hn]
    have hnat : n.val.toNat < 256 := by omega
    show some ((UInt8.ofNat n.val.toNat).toNat : Int) = some n.val
    rw [UInt8.toNat_ofNat_of_lt' hnat, Int.toNat_of_nonneg hn.1]

theorem map_toNat_given {ms : List (String × Value)} (h : Allowed ms) :
    ((given ms .level).bind Value.octet?).map (fun n => (n.toNat : Int)) =
      (given ms .level).bind Value.integer? := by
  cases hlevel : given ms .level with
  | none => rfl
  | some v => exact map_toNat_octet? (h.given_accepts .level v hlevel)

theorem get?_others (ms : List (String × Value)) (name : String) :
    (FieldMap.ofList (others ms)).get? name =
      if Slot.ofName? name = none then ms.reverse.lookup name else none := by
  have hlookup (ms : List (String × Value)) : (others ms).lookup name =
      if Slot.ofName? name = none then ms.lookup name else none := by
    induction ms with
    | nil => simp [others]
    | cons m ms ih =>
      obtain ⟨key, v⟩ := m
      rw [lookup_cons]
      by_cases hkey : Slot.ofName? key = none
      · rw [others, List.filter_cons_of_pos (by rw [hkey]; rfl), lookup_cons]
        by_cases heq : name = key
        · subst heq
          rw [if_pos rfl, if_pos hkey, if_pos rfl]
        · rw [if_neg heq, if_neg heq]
          exact ih
      · rw [others, List.filter_cons_of_neg (by rwa [Option.isNone_iff_eq_none])]
        by_cases heq : name = key
        · subst heq
          rw [if_neg hkey]
          rw [if_neg hkey] at ih
          exact ih
        · rw [if_neg heq]
          exact ih
  rw [FieldMap.get?_ofList, others, ← List.filter_reverse]
  exact hlookup ms.reverse

/-- **Schema.** Members make a record when they fit, and it holds their values. -/
theorem ofMembers?_eq_some_iff (ms : List (String × Value)) {r : Record} :
    ofMembers? ms = some r ↔ Allowed ms ∧ r.Holds ms := by
  have hmap {α β : Type} {f : α → β} (hf : Function.Injective f) {a b : Option α} :
      a = b ↔ b.map f = a.map f :=
    ⟨fun h => h ▸ rfl, fun h => (Option.map_injective hf h).symm⟩
  have hval : Function.Injective (fun x : FiniteFloat => x.val) := by
    rintro ⟨x, hx⟩ ⟨y, hy⟩ rfl
    rfl
  have hnat : Function.Injective fun n : UInt8 => (n.toNat : Int) := by
    intro m n h
    exact UInt8.toNat_inj.1 (Int.ofNat.inj h)
  have htext := join_bind_optional? (f := Value.string?) rfl (given ms .fullMessage)
  have hfinite := join_bind_optional? (f := Value.finite?) rfl (given ms .timestamp)
  have hoctet := join_bind_optional? (f := Value.octet?) rfl (given ms .level)
  rw [ofMembers?, Option.bind_eq_some_iff]
  simp only [foldlM_step_eq_some_iff, ← Json.eq_ok_iff_toOption, complete_eq_ok_iff]
  constructor
  · rintro ⟨draft, ⟨hallowed, rfl⟩, ⟨hversion, hhost, hshort⟩, hfull, htime, hlevel, hfields⟩
    simp only [Draft.of, bind_string?_eq_some_iff] at hversion hhost hshort
    simp only [Draft.of, htext, hfinite, hoctet] at hfull htime hlevel
    refine ⟨hallowed, hversion, hhost, hshort, hfull.symm, ?_, ?_, ?_⟩
    · rw [← htime]
      exact map_val_finite? _
    · rw [← hlevel]
      exact map_toNat_given hallowed
    · rw [← hfields]
      exact get?_others ms
  · rintro ⟨hallowed, h⟩
    refine ⟨_, ⟨hallowed, rfl⟩, ?_⟩
    simp only [Draft.of, bind_string?_eq_some_iff, htext, hfinite, hoctet]
    refine ⟨⟨h.version, h.host, h.shortMessage⟩, h.fullMessage.symm, ?_, ?_, ?_⟩
    · rw [hmap hval, h.timestamp]
      exact (map_val_finite? _).symm
    · rw [hmap hnat, h.level]
      exact (map_toNat_given hallowed).symm
    · refine FieldMap.ext fun name => ?_
      rw [h.additional name]
      exact get?_others ms name

theorem exists_lookup {ms : List (String × Value)} {name : String}
    (h : ∃ v, (name, v) ∈ ms) : ∃ v, ms.lookup name = some v := by
  obtain ⟨v, hv⟩ := h
  cases hlookup : ms.lookup name with
  | some w => exact ⟨w, rfl⟩
  | none => simpa using List.lookup_eq_none_iff.1 hlookup _ hv

theorem Fits.exists_holds {ms : List (String × Value)} (h : Fits ms) :
    ∃ r : Record, r.Holds ms := by
  have htext (slot : Slot) (hslot : slot ∈ [Slot.version, .host, .shortMessage])
      (hstring : ∀ v, slot.Accepts v → ∃ s, v = .string s) :
      ∃ s, ms.lookup slot.name = some (.string s) := by
    obtain ⟨v, hv⟩ := exists_lookup (h.required slot hslot)
    obtain ⟨s, rfl⟩ := hstring v (h.given_accepts slot v hv)
    exact ⟨s, hv⟩
  obtain ⟨version, hversion⟩ := htext .version (by decide) fun _ h => h
  obtain ⟨host, hhost⟩ := htext .host (by decide) fun _ h => h
  obtain ⟨shortMessage, hshort⟩ := htext .shortMessage (by decide) fun _ h => h
  exact ⟨⟨version, host, shortMessage, _, _, _, _⟩,
    { version := hversion
      host := hhost
      shortMessage := hshort
      fullMessage := rfl
      timestamp := map_val_finite? _
      level := map_toNat_given h.toAllowed
      additional := get?_others ms }⟩

theorem Holds.fits {r : Record} {ms : List (String × Value)} (h : r.Holds ms)
    (hallowed : Allowed ms) : Fits ms where
  toAllowed := hallowed
  required slot hslot := by
    simp only [List.mem_cons, List.not_mem_nil, or_false] at hslot
    rcases hslot with rfl | rfl | rfl
    · exact ⟨_, mem_of_lookup h.version⟩
    · exact ⟨_, mem_of_lookup h.host⟩
    · exact ⟨_, mem_of_lookup h.shortMessage⟩

/-! ### Order of members -/

section Order

variable {ms ms' : List (String × Value)}

theorem Allowed.perm (h : Allowed ms) (hperm : ms.Perm ms') : Allowed ms' where
  once slot := by
    rw [← (hperm.map Prod.fst).count_eq]
    exact h.once slot
  accepts slot v hv := h.accepts slot v (hperm.mem_iff.2 hv)

theorem lookup_eq_some_iff_of_nodup (hms : (ms.map Prod.fst).Nodup) {name : String} {v : Value} :
    ms.lookup name = some v ↔ (name, v) ∈ ms := by
  refine ⟨mem_of_lookup, fun h => ?_⟩
  obtain ⟨w, hw⟩ := exists_lookup ⟨v, h⟩
  have heq := List.inj_on_of_nodup_map hms (mem_of_lookup hw) h rfl
  rw [hw, (Prod.mk.inj heq).2]

theorem lookup_perm (hperm : ms.Perm ms') (hms : (ms.map Prod.fst).Nodup) (name : String) :
    ms.lookup name = ms'.lookup name := by
  have hms' : (ms'.map Prod.fst).Nodup := (hperm.map Prod.fst).nodup_iff.1 hms
  refine Option.ext fun v => ?_
  rw [lookup_eq_some_iff_of_nodup hms, lookup_eq_some_iff_of_nodup hms', hperm.mem_iff]

theorem Holds.perm {r : Record} (h : r.Holds ms) (hperm : ms.Perm ms')
    (hms : (ms.map Prod.fst).Nodup) : r.Holds ms' := by
  have hslot (name : String) : ms'.lookup name = ms.lookup name := (lookup_perm hperm hms name).symm
  have hreverse (name : String) : ms'.reverse.lookup name = ms.reverse.lookup name := by
    refine (lookup_perm ((List.reverse_perm ms).trans (hperm.trans (List.reverse_perm ms').symm))
      ?_ name).symm
    rw [List.map_reverse, List.nodup_reverse]
    exact hms
  exact
    { version := by rw [hslot, h.version]
      host := by rw [hslot, h.host]
      shortMessage := by rw [hslot, h.shortMessage]
      fullMessage := by rw [hslot, h.fullMessage]
      timestamp := by rw [hslot, h.timestamp]
      level := by rw [hslot, h.level]
      additional := fun name => by rw [hreverse, h.additional] }

theorem exists_mapM_perm {α β : Type} {f : α → Option β} {as bs : List α} (hperm : as.Perm bs)
    {cs : List β} (h : as.mapM f = some cs) : ∃ ds, bs.mapM f = some ds ∧ cs.Perm ds := by
  induction hperm generalizing cs with
  | nil => exact ⟨cs, h, .refl cs⟩
  | cons a _ ih =>
    simp only [List.mapM_cons, Option.bind_eq_bind, Option.bind_eq_some_iff] at h
    obtain ⟨b, hb, bs, hbs, h⟩ := h
    cases h
    obtain ⟨ds, hds, hperm⟩ := ih hbs
    exact ⟨b :: ds, by rw [List.mapM_cons, hb, hds]; rfl, hperm.cons b⟩
  | swap a a' as =>
    simp only [List.mapM_cons, Option.bind_eq_bind, Option.bind_eq_some_iff] at h
    obtain ⟨b', hb', _, ⟨b, hb, bs, hbs, htail⟩, h⟩ := h
    cases htail
    cases h
    refine ⟨b :: b' :: bs, ?_, .swap b b' bs⟩
    rw [List.mapM_cons, List.mapM_cons, hb, hb', hbs]
    rfl
  | trans _ _ ih ih' =>
    obtain ⟨ds, hds, hperm⟩ := ih h
    obtain ⟨es, hes, hperm'⟩ := ih' hds
    exact ⟨es, hes, hperm.trans hperm'⟩

theorem map_fst_memberValues? {d : Nat} {members : List (String × Tree)}
    (h : memberValues? d members = some ms) : ms.map Prod.fst = members.map Prod.fst := by
  induction members generalizing ms with
  | nil =>
    cases h
    rfl
  | cons m members ih =>
    simp only [memberValues?, List.mapM_cons, Option.bind_eq_bind, Option.bind_eq_some_iff,
      Option.map_eq_some_iff] at h
    obtain ⟨_, ⟨v, -, rfl⟩, ms, hms, h⟩ := h
    cases h
    rw [List.map_cons, List.map_cons, ih hms]

end Order

theorem read_eq_ok_iff {text : String} {members : List (String × Tree)}
    (h : IsText text (.object members)) {r : Record} :
    read (Text.utf8 text) = .ok r ↔
      ∃ ms, memberValues? (Json.maxDepth - 1) members = some ms ∧ Allowed ms ∧ r.Holds ms := by
  rw [Json.eq_ok_iff_toOption, toOption_read h, ofTree?, Option.bind_eq_some_iff]
  simp only [ofMembers?_eq_some_iff]

theorem read_of_perm {text text' : String} {members members' : List (String × Tree)}
    (h : IsText text (.object members)) (h' : IsText text' (.object members'))
    (hperm : members.Perm members') (hmembers : (members.map Prod.fst).Nodup) {r : Record}
    (hread : read (Text.utf8 text) = .ok r) : read (Text.utf8 text') = .ok r := by
  obtain ⟨ms, hms, hallowed, hholds⟩ := (read_eq_ok_iff h).1 hread
  obtain ⟨ms', hms', hperm'⟩ := exists_mapM_perm hperm hms
  rw [← map_fst_memberValues? hms] at hmembers
  exact (read_eq_ok_iff h').2 ⟨ms', hms', hallowed.perm hperm', hholds.perm hperm' hmembers⟩

/-- **Reading by the schema.** What is read, as a value or as a record, is a text of the grammar. A
text of an object is read as a record exactly when its members fit, and the record holds their
values, whatever their order. No other text is read. -/
theorem text_is_read_by_schema :
    (∀ b : List UInt8, (∃ value, Value.read b = .ok value) ∨ (∃ r, read b = .ok r) →
      ∃ text v, b = Text.utf8 text ∧ IsText text v) ∧
    (∀ (text : String) (members : List (String × Tree)) (value : Value),
      IsText text (.object members) → Value.read (Text.utf8 text) = .ok value →
        ∃ ms, memberValues? (Json.maxDepth - 1) members = some ms ∧
          value = .ofFields (.ofList ms) ∧
          ((∃ r, read (Text.utf8 text) = .ok r) ↔ Fits ms) ∧
          ∀ r, read (Text.utf8 text) = .ok r → r.Holds ms) ∧
    (∀ (d : Nat) (members : List (String × Tree)) (value : Value),
      (Tree.object members).value? (d + 1) = some value →
        ∃ ms fields, memberValues? d members = some ms ∧ value = .ofFields fields ∧
          ∀ name, fields.get? name = ms.reverse.lookup name) ∧
    (∀ (text text' : String) (members members' : List (String × Tree)),
      IsText text (.object members) → IsText text' (.object members') →
        members.Perm members' → (members.map Prod.fst).Nodup →
          ∀ r, read (Text.utf8 text) = .ok r ↔ read (Text.utf8 text') = .ok r) ∧
    ∀ (text : String) (v : Tree), IsText text v → (∀ members, v ≠ .object members) →
      ∀ r, read (Text.utf8 text) ≠ .ok r := by
  have hobject (d : Nat) (members : List (String × Tree)) (value : Value)
      (h : (Tree.object members).value? (d + 1) = some value) :
      ∃ ms, memberValues? d members = some ms ∧ value = .ofFields (.ofList ms) := by
    rw [Tree.value?] at h
    obtain ⟨ms, hms, rfl⟩ := Option.map_eq_some_iff.1 h
    exact ⟨ms, hms, rfl⟩
  refine ⟨fun b hb => ?_, fun text members value htext hvalue => ?_, fun d members value h => ?_,
    fun text text' members members' htext htext' hperm hmembers r => ?_,
    fun text v htext hv r hread => ?_⟩
  · rcases hb with ⟨value, hvalue⟩ | ⟨r, hread⟩
    · exact (Json.accepts_value Json.maxDepth).exists_isText hvalue
    · exact accepts_reader.exists_isText hread
  · have htree : (Value.read (Text.utf8 text)).toOption =
        (Tree.object members).value? Json.maxDepth :=
      (Json.follows_value Json.maxDepth).readAll htext
    rw [Json.eq_ok_iff_toOption.1 hvalue] at htree
    obtain ⟨ms, hms, rfl⟩ := hobject (Json.maxDepth - 1) members value htree.symm
    have hread (r : Record) : read (Text.utf8 text) = .ok r ↔ Allowed ms ∧ r.Holds ms := by
      rw [read_eq_ok_iff htext, hms]
      simp
    refine ⟨ms, hms, rfl, ⟨?_, ?_⟩, fun r hr => ((hread r).1 hr).2⟩
    · rintro ⟨r, hr⟩
      obtain ⟨hallowed, hholds⟩ := (hread r).1 hr
      exact hholds.fits hallowed
    · intro hfits
      obtain ⟨r, hr⟩ := hfits.exists_holds
      exact ⟨r, (hread r).2 ⟨hfits.toAllowed, hr⟩⟩
  · obtain ⟨ms, hms, rfl⟩ := hobject d members value h
    exact ⟨ms, .ofList ms, hms, rfl, FieldMap.get?_ofList ms⟩
  · have hmembers' := (hperm.map Prod.fst).nodup_iff.1 hmembers
    exact ⟨read_of_perm htext htext' hperm hmembers, read_of_perm htext' htext hperm.symm hmembers'⟩
  · have hnone := toOption_read htext
    rw [Json.eq_ok_iff_toOption.1 hread] at hnone
    cases v with
    | object members => exact hv members rfl
    | _ => cases hnone

/-- A field that occurs twice has its last value, and a level that is `null` is none. -/
theorem last_note_is_read :
    let members := [("host", Value.string "web-1"), ("note", .string "first"), ("level", .null),
      ("version", .string "1.1"), ("short_message", .string "up"), ("note", .string "last")]
    ∃ r, read (Text.utf8 (Value.object members).text) = .ok r ∧ r.host = "web-1" ∧
      r.level = none ∧ r.additional.get? "note" = some (.string "last") := by
  intro members
  have htext := Json.Grammar.isText_object members
  have hmembers : memberValues? (Json.maxDepth - 1) (Value.memberTrees members) = some members :=
    rfl
  have hread : (Value.read (Text.utf8 (Value.object members).text)).toOption =
      some (.ofFields (.ofList members)) := (Json.follows_value Json.maxDepth).readAll htext
  obtain ⟨-, hschema, -⟩ := text_is_read_by_schema
  obtain ⟨ms, hms, -, hfits, hholds⟩ := hschema _ _ _ htext (Json.eq_ok_iff_toOption.2 hread)
  obtain rfl : members = ms := Option.some.inj (hmembers.symm.trans hms)
  have hfit : Fits members := by
    refine ⟨⟨fun slot => by cases slot <;> decide, fun slot v hv => ?_⟩, fun slot hslot => ?_⟩
    · cases slot <;> simp [members, Slot.name] at hv <;> subst hv <;> simp [Slot.Accepts]
    · simp only [List.mem_cons, List.not_mem_nil, or_false] at hslot
      rcases hslot with rfl | rfl | rfl <;> simp [members, Slot.name]
  obtain ⟨r, hr⟩ := hfits.2 hfit
  have hvalues := hholds r hr
  have hhost : some (Value.string "web-1") = some (.string r.host) := hvalues.host
  have hlevel : r.level.map (fun n => (n.toNat : Int)) = none := hvalues.level
  refine ⟨r, hr, ?_, Option.map_eq_none_iff.1 hlevel, hvalues.additional "note"⟩
  exact (Value.string.inj (Option.some.inj hhost)).symm

end Record

end Gelf
