import Gelf.Proofs.Decimal.Scaling
import Gelf.Proofs.Json.Accepted
import Gelf.Proofs.Record.RoundTrip

/-!
# Records, member by member

Reading a record is a fold over the members of its text, each of which has a value by then. The
reader of a slot looks at the first octet before it reads, which makes no difference: what it
refuses there has a value of another kind.
-/

namespace Gelf

namespace Json

open Grammar

/-! ### Kinds of values -/

namespace Value

def string? : Value → Option String
  | .string s => some s
  | _ => none

def float? : Value → Option Float
  | .number n => some n.toFloat
  | _ => none

def finite? (v : Value) : Option FiniteFloat := v.float?.bind FiniteFloat.ofFloat?

def integer? : Value → Option Int
  | .number (.integer n) => some n.val
  | _ => none

def octet? (v : Value) : Option UInt8 :=
  v.integer?.bind fun n => if 0 ≤ n ∧ n ≤ 255 then some (UInt8.ofNat n.toNat) else none

/-- What `null` stands for where a value may be left out. -/
def optional? {α : Type} (f : Value → Option α) : Value → Option (Option α)
  | .null => some none
  | v => (f v).map some

end Value

theorem isFinite_toFloat (n : Number) : n.toFloat.isFinite = true := by
  cases n with
  | real x => exact x.isFinite
  | integer n =>
    have hlower := n.lower
    have hupper := n.upper
    have hnat : (UInt64.ofNat n.val.natAbs).toFloat.isFinite = true := by
      by_cases hzero : n.val.natAbs = 0
      · rw [hzero]
        decide +kernel
      · exact (isNear_toFloat hzero (by omega)).isFinite
    rw [Number.toFloat, Integer.toFloat]
    split
    · exact isFinite_neg hnat
    · exact hnat

theorem Value.finite?_number (n : Number) :
    (Value.number n).finite? = some ⟨n.toFloat, isFinite_toFloat n⟩ :=
  dif_pos (isFinite_toFloat n)

theorem Value.octet?_integer {n : Integer} (h : 0 ≤ n.val ∧ n.val ≤ 255) :
    (Value.number (.integer n)).octet? = some (UInt8.ofNat n.val.toNat) := if_pos h

/-! ### Slot readers -/

/-- What is asked of a scalar does not depend on how deep values may be. -/
theorem Tree.value?_bind_eq {α : Type} {f : Value → Option α} (harray : ∀ vs, f (.array vs) = none)
    (hobject : ∀ ms, f (.object ms) = none) (d : Nat) (t : Tree) :
    (t.value? d).bind f = (t.value? 0).bind f := by
  cases t with
  | array items =>
    cases d with
    | zero => rfl
    | succ d =>
      rw [Tree.value?, Tree.value?]
      cases items.mapM (Tree.value? d) with
      | none => rfl
      | some vs => exact harray vs
  | object members =>
    cases d with
    | zero => rfl
    | succ d =>
      rw [Tree.value?, Tree.value?]
      cases members.mapM fun m => (m.2.value? d).map (Prod.mk m.1) with
      | none => rfl
      | some ms => exact hobject _
  | _ => simp only [Tree.value?]

section Scalars

variable {α : Type} {wanted : String} {starts : UInt8 → Bool} {accept : Value → Except ReadError α}
  {f : Value → Option α}

/-- A reader that looks at the first octet follows the grammar when it turns away only what it would
not accept. -/
theorem follows_scalarRun
    (haccept : ∀ {t : Tree} {b v}, t.Starts b → t.value? 0 = some v → starts b = true →
      (accept v).toOption = f v)
    (hrefuse : ∀ {t : Tree} {b v}, t.Starts b → t.value? 0 = some v → starts b = false →
      f v = none) :
    Follows ⟨scalarRun wanted starts accept, scalarRun_length_le⟩ fun t => (t.value? 0).bind f := by
  constructor
  intro s t rest v hs hv hrest
  obtain ⟨b, r, hoctets, hskip, hb⟩ := hs.exists_starts hv
  have hread := (follows_value 0).toOption_run .none hv hrest
  have hrun : (value 0).run (octets t) = valueRun none (b :: r) := by
    rw [hoctets]
    rfl
  have hbind : scalarRun wanted starts accept (octets s) =
      if starts b = true then
        (valueRun none (b :: r)).bind fun p => (accept p.1).map fun a => (a, p.2)
      else .error (misplaced wanted (b :: r)) := by
    rw [scalarRun, hskip]
    dsimp only
    cases valueRun none (b :: r) <;> rfl
  rw [hrun] at hread
  show (scalarRun wanted starts accept (octets s)).toOption =
    ((v.value? 0).bind f).map fun a => (a, octets rest)
  rw [hbind]
  cases hstarts : starts b with
  | true =>
    rw [if_pos rfl, toOption_bind, hread]
    cases hvalue : v.value? 0 with
    | none => rfl
    | some w =>
      simp only [Option.map_some, Option.bind_some, toOption_map, haccept hb hvalue hstarts]
  | false =>
    rw [if_neg Bool.false_ne_true]
    cases hvalue : v.value? 0 with
    | none => rfl
    | some w =>
      rw [Option.bind_some, hrefuse hb hvalue hstarts]
      rfl

end Scalars

theorem follows_stringReader :
    Follows stringReader fun t => (t.value? 0).bind Value.string? := by
  apply follows_scalarRun
  · intro t b v hb hv hstarts
    cases v <;> rfl
  · intro t b v hb hv hstarts
    cases t with
    | string s =>
      cases hb
      cases hstarts
    | null => cases hv; rfl
    | bool _ => cases hv; rfl
    | number literal =>
      obtain ⟨n, -, rfl⟩ := Option.map_eq_some_iff.1 hv
      rfl
    | array _ => cases hv
    | object _ => cases hv

theorem follows_startsNumber {α : Type} {wanted : String} {accept : Value → Except ReadError α}
    {f : Value → Option α} (haccept : ∀ v, (accept v).toOption = f v)
    (hnull : f .null = none) (hbool : ∀ b, f (.bool b) = none)
    (hstring : ∀ s, f (.string s) = none) :
    Follows ⟨scalarRun wanted startsNumber accept, scalarRun_length_le⟩ fun t =>
      (t.value? 0).bind f := by
  apply follows_scalarRun
  · intro t b v _ _ _
    exact haccept v
  · intro t b v hb hv hstarts
    cases t with
    | number literal =>
      rw [(startsNumber_iff b).2 hb] at hstarts
      cases hstarts
    | null =>
      cases hv
      exact hnull
    | bool b' =>
      cases hv
      exact hbool b'
    | string s =>
      cases hv
      exact hstring s
    | array _ => cases hv
    | object _ => cases hv

theorem follows_floatReader :
    Follows floatReader fun t => (t.value? 0).bind Value.finite? := by
  refine follows_startsNumber (fun v => ?_) rfl (fun _ => rfl) fun _ => rfl
  cases v with
  | number n =>
    have hfinite : FiniteFloat.ofFloat? n.toFloat = some ⟨n.toFloat, isFinite_toFloat n⟩ :=
      dif_pos (isFinite_toFloat n)
    rw [Value.finite?_number]
    simp only [hfinite]
    rfl
  | _ => rfl

theorem follows_octetReader :
    Follows octetReader fun t => (t.value? 0).bind Value.octet? := by
  refine follows_startsNumber (fun v => ?_) rfl (fun _ => rfl) fun _ => rfl
  cases v with
  | number n =>
    cases n with
    | real x => rfl
    | integer n =>
      show Except.toOption (if 0 ≤ n.val ∧ n.val ≤ 255 then .ok (UInt8.ofNat n.val.toNat)
        else .error (ReadError.outOfRange n "u8")) =
          if 0 ≤ n.val ∧ n.val ≤ 255 then some (UInt8.ofNat n.val.toNat) else none
      split <;> rfl
  | _ => rfl

theorem accepts_scalarRun {α : Type} {wanted : String} {starts : UInt8 → Bool}
    {accept : Value → Except ReadError α} :
    Accepts ⟨scalarRun wanted starts accept, scalarRun_length_le⟩ where
  exists_spells {s a r} h := by
    have hrun : scalarRun wanted starts accept s = .ok (a, r) := h
    unfold scalarRun at hrun
    split at hrun
    · cases hrun
    rename_i b q hskip
    split at hrun
    · split at hrun
      · cases hrun
      rename_i v t hvalue
      obtain ⟨a, -, heq⟩ := exists_of_map_eq_ok hrun
      cases heq
      have hspace : skipSpace s = skipSpace (b :: q) := by
        rw [← hskip]
        exact (List.dropWhile_idempotent _ _).symm
      rw [← valueRun_congr none hspace] at hvalue
      exact (accepts_value 0).exists_spells hvalue
    · cases hrun

theorem accepts_stringReader : Accepts stringReader := accepts_scalarRun

theorem accepts_floatReader : Accepts floatReader := accepts_scalarRun

theorem accepts_octetReader : Accepts octetReader := accepts_scalarRun

theorem Accepts.optional {α : Type} {reader : Reader α} (h : Accepts reader) :
    Accepts reader.optional where
  exists_spells {s a r} hrun := by
    have hrun : optionalRun reader s = .ok (a, r) := hrun
    unfold optionalRun at hrun
    split at hrun
    · obtain ⟨p, hread, heq⟩ := exists_of_map_eq_ok hrun
      cases heq
      exact h.exists_spells hread
    rename_i b q hskip
    split at hrun
    · rename_i hnull
      obtain ⟨t, hliteral, heq⟩ := exists_of_map_eq_ok hrun
      cases heq
      have hds : skipSpace s = octets ['n', 'u', 'l', 'l'] ++ r := by
        rw [hskip, hnull, eq_of_literal hliteral]
        rfl
      obtain ⟨cs, hs, hcs⟩ := exists_spells_of_skipSpace hds fun rest => .null
      exact ⟨cs, .null, hs, hcs⟩
    · obtain ⟨p, hread, heq⟩ := exists_of_map_eq_ok hrun
      cases heq
      exact h.exists_spells hread

theorem Follows.optional {α : Type} {reader : Reader α} {f : Value → Option α}
    (h : Follows reader fun t => (t.value? 0).bind f) :
    Follows reader.optional fun t => (t.value? 0).bind (Value.optional? f) := by
  constructor
  intro s t rest v hs hv hrest
  obtain ⟨b, r, hoctets, hskip, hb⟩ := hs.exists_starts hv
  have hread := h.toOption_run hs hv hrest
  show (optionalRun reader (octets s)).toOption =
    ((v.value? 0).bind (Value.optional? f)).map fun a => (a, octets rest)
  rw [optionalRun, hskip]
  dsimp only
  by_cases hnull : b = octet 'n'
  · subst hnull
    cases hb.eq_null
    cases hv
    have hr : octets ('u' :: 'l' :: 'l' :: rest) = r := by
      rw [octets_cons_of_le _ (by decide)] at hoctets
      exact (List.cons.inj hoctets).2
    rw [if_pos rfl, ← hr, octets_cons_of_le _ (by decide), octets_cons_of_le _ (by decide),
      octets_cons_of_le _ (by decide)]
    rfl
  · have hfull : (v.value? 0).bind (Value.optional? f) = ((v.value? 0).bind f).map some := by
      cases v with
      | null => exact absurd hb hnull
      | number literal =>
        rw [Tree.value?]
        cases number? literal <;> rfl
      | _ => rfl
    rw [if_neg hnull, toOption_map, hread, hfull, Option.map_map, Option.map_map]
    rfl

end Json

namespace Record

open Json (Accepts AcceptsMembers Follows FollowsMembers Tree Value memberValues?)
open Json.Grammar (IsText)

/-! ### Steps -/

/-- The draft with a value in a slot, when the value is of the kind of the slot. -/
def Draft.fill? (draft : Draft) : Slot → Value → Option Draft
  | .version, v => v.string?.map fun text => { draft with version := some text }
  | .host, v => v.string?.map fun text => { draft with host := some text }
  | .shortMessage, v => v.string?.map fun text => { draft with shortMessage := some text }
  | .fullMessage, v =>
    (v.optional? Value.string?).map fun text => { draft with fullMessage := some text }
  | .timestamp, v => (v.optional? Value.finite?).map fun x => { draft with timestamp := some x }
  | .level, v => (v.optional? Value.octet?).map fun n => { draft with level := some n }

/-- Takes in a member that has a value. A slot that has one is refused another. -/
def Draft.step (draft : Draft) (m : String × Value) : Option Draft :=
  match Slot.ofName? m.1 with
  | some slot => if draft.has slot then none else draft.fill? slot m.2
  | none => some (draft.put m.1 m.2)

theorem Draft.step_slot (draft : Draft) {m : String × Value} {slot : Slot}
    (h : Slot.ofName? m.1 = some slot) :
    draft.step m = if draft.has slot then none else draft.fill? slot m.2 := by
  rw [Draft.step, h]

theorem Draft.step_other (draft : Draft) {m : String × Value} (h : Slot.ofName? m.1 = none) :
    draft.step m = some (draft.put m.1 m.2) := by
  rw [Draft.step, h]

theorem complete_eq_ok_iff {draft : Draft} {r : Record} :
    draft.complete = .ok r ↔
      (draft.version = some r.version ∧ draft.host = some r.host ∧
        draft.shortMessage = some r.shortMessage) ∧
      draft.fullMessage.join = r.fullMessage ∧ draft.timestamp.join = r.timestamp ∧
        draft.level.join = r.level ∧ draft.additional = r.additional := by
  unfold Draft.complete
  cases draft.version with
  | none => simp
  | some version =>
    cases draft.host with
    | none => simp
    | some host =>
      cases draft.shortMessage with
      | none => simp
      | some shortMessage =>
        cases r
        simp [and_assoc]

/-- The record of members that have their values, in the order of the text. -/
def ofMembers? (ms : List (String × Value)) : Option Record :=
  (ms.foldlM Draft.step {}).bind fun draft => draft.complete.toOption

/-! ### Reading -/

theorem follows_slotReader (draft : Draft) (slot : Slot) (d : Nat) :
    Follows (draft.slotReader slot) fun t => (t.value? d).bind (draft.fill? slot) := by
  have hscalar (t : Tree) :
      (t.value? d).bind (draft.fill? slot) = (t.value? 0).bind (draft.fill? slot) := by
    apply Json.Tree.value?_bind_eq <;> cases slot <;> exact fun _ => rfl
  simp only [hscalar]
  cases slot with
  | version =>
    exact Json.follows_stringReader.bind_map fun text =>
      ({ draft with version := some text } : Draft)
  | host =>
    exact Json.follows_stringReader.bind_map fun text =>
      ({ draft with host := some text } : Draft)
  | shortMessage =>
    exact Json.follows_stringReader.bind_map fun text =>
      ({ draft with shortMessage := some text } : Draft)
  | fullMessage =>
    exact Json.follows_stringReader.optional.bind_map fun text =>
      ({ draft with fullMessage := some text } : Draft)
  | timestamp =>
    exact Json.follows_floatReader.optional.bind_map fun x =>
      ({ draft with timestamp := some x } : Draft)
  | level =>
    exact Json.follows_octetReader.optional.bind_map fun n =>
      ({ draft with level := some n } : Draft)

theorem followsMembers_take : FollowsMembers Draft.take fun draft m =>
    ((m.2.value? (Json.maxDepth - 1)).map (Prod.mk m.1)).bind draft.step where
  refused {draft name e} h t := by
    rw [Draft.take] at h
    split at h
    · rename_i slot hslot
      split at h
      · rename_i hhas
        cases t.value? (Json.maxDepth - 1) with
        | none => rfl
        | some v =>
          have hstep := draft.step_slot (m := (name, v)) hslot
          rwa [if_pos hhas] at hstep
      · cases h
    · cases h
  taken {draft name reader} h := by
    rw [Draft.take] at h
    split at h
    · rename_i slot hslot
      split at h
      · cases h
      · rename_i hhas
        cases h
        have hstep (v : Value) : draft.step (name, v) = draft.fill? slot v := by
          rw [draft.step_slot (m := (name, v)) hslot, if_neg hhas]
        simp only [Option.bind_map, Function.comp_def, hstep]
        exact follows_slotReader draft slot _
    · rename_i hslot
      cases h
      have hstep (v : Value) : draft.step (name, v) = some (draft.put name v) :=
        draft.step_other (m := (name, v)) hslot
      have hput := (Json.follows_value (Json.maxDepth - 1)).map (draft.put name)
      simp only [Option.map_eq_bind, Function.comp_def] at hput
      simp only [Option.bind_map, Function.comp_def, hstep]
      exact hput

/-- The record of a tree, if it is that of an object. -/
def ofTree? : Tree → Option Record
  | .object members => (memberValues? (Json.maxDepth - 1) members).bind ofMembers?
  | _ => none

theorem run_brace {s r : List UInt8} (h : Json.skipSpace s = Json.octet '{' :: r) :
    (run s).toOption = (Json.members Draft.take {} r).toOption.bind fun p =>
      p.1.complete.toOption.map fun record => (record, p.2) := by
  rw [run, h]
  dsimp only
  rw [if_pos rfl]
  cases Json.members Draft.take {} r with
  | error e => rfl
  | ok p => exact Json.toOption_map _ _

theorem run_other {s r : List UInt8} {b : UInt8} (h : Json.skipSpace s = b :: r)
    (hb : b ≠ Json.octet '{') : (run s).toOption = none := by
  rw [run, h]
  dsimp only
  rw [if_neg hb]
  rfl

theorem follows_reader : Follows reader ofTree? := by
  constructor
  intro s t rest v hs hv hrest
  obtain ⟨b, r, hoctets, hskip, hb⟩ := hs.exists_starts hv
  show (run (Json.octets s)).toOption = _
  cases v with
  | object members =>
    obtain ⟨q, hbrace, hmembers⟩ := hv.exists_members_eq followsMembers_take
    rw [hoctets] at hbrace
    rw [hbrace] at hskip
    rw [run_brace hskip, hmembers, Json.foldlM_bind_eq, ofTree?, memberValues?]
    cases members.mapM fun m => (m.2.value? (Json.maxDepth - 1)).map (Prod.mk m.1) with
    | none => rfl
    | some ms =>
      simp only [Option.bind_some, ofMembers?]
      cases ms.foldlM Draft.step {} <;> rfl
  | null => cases hb; exact run_other hskip (by decide)
  | bool b' => cases b' <;> cases hb <;> exact run_other hskip (by decide)
  | number literal => exact run_other hskip (Json.StartsNumber.ne hb (by decide) (by decide))
  | string text => cases hb; exact run_other hskip (by decide)
  | array items => cases hb; exact run_other hskip (by decide)

theorem accepts_slotReader (draft : Draft) (slot : Slot) : Accepts (draft.slotReader slot) := by
  unfold Draft.slotReader
  cases slot with
  | version => exact Json.accepts_stringReader.map _
  | host => exact Json.accepts_stringReader.map _
  | shortMessage => exact Json.accepts_stringReader.map _
  | fullMessage => exact Json.accepts_stringReader.optional.map _
  | timestamp => exact Json.accepts_floatReader.optional.map _
  | level => exact Json.accepts_octetReader.optional.map _

theorem acceptsMembers_take : AcceptsMembers Draft.take := by
  intro draft name reader h
  rw [Draft.take] at h
  split at h
  · rename_i slot _
    split at h
    · cases h
    · cases h
      exact accepts_slotReader draft slot
  · cases h
    exact (Json.accepts_value _).map _

theorem accepts_reader : Accepts reader where
  exists_spells {s record r} h := by
    have hrun : run s = .ok (record, r) := h
    unfold run at hrun
    split at hrun
    · cases hrun
    rename_i b q hskip
    split at hrun
    · rename_i hbrace
      split at hrun
      · cases hrun
      rename_i draft t hmembers
      obtain ⟨record, -, heq⟩ := Json.exists_of_map_eq_ok hrun
      cases heq
      obtain ⟨ds, members, rfl, hds⟩ := acceptsMembers_take.exists_derives_object hmembers
      have hobject : Json.skipSpace s = Json.octets ('{' :: ds) ++ r := by
        rw [hskip, hbrace, Json.octets_cons_of_le ds (by decide)]
        rfl
      obtain ⟨cs, hs, hcs⟩ := Json.exists_spells_of_skipSpace hobject hds
      exact ⟨cs, .object members, hs, hcs⟩
    · cases hrun

/-- **Members.** Reading the text of an object takes in its members one after another. -/
theorem toOption_read {text : String} {v : Tree} (h : IsText text v) :
    (read (Text.utf8 text)).toOption = ofTree? v :=
  follows_reader.readAll h

end Record

end Gelf
