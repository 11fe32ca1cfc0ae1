import Gelf.Proofs.Json.RoundTrip
import Gelf.Record.Reader

/-!
# Reading records back

The text of a record is read back as the record, up to floats. Every slot is read by a reader of its
own kind, which sees from the first octet that the kind is right, and a field that has the name of
no slot is read as any value.
-/

namespace Gelf

namespace Json

/-! ### Slot readers -/

theorem scalarRun_octets {α : Type} {wanted : String} {starts : UInt8 → Bool}
    {accept : Value → Except ReadError α} {cs : List Char} {v : Value} {a : α}
    {b : UInt8} {s : List UInt8} (hcs : octets cs = b :: s) (hspace : isSpace b = false)
    (hstarts : starts b = true) (haccept : accept v = .ok a) {rest : List UInt8}
    (hread : valueRun none (octets cs ++ rest) = .ok (v, rest)) :
    scalarRun wanted starts accept (octets cs ++ rest) = .ok (a, rest) := by
  have hskip : skipSpace (octets cs ++ rest) = b :: (s ++ rest) := by
    rw [hcs]
    exact skipSpace_cons hspace _
  rw [hcs, List.cons_append] at hread
  rw [scalarRun, hskip]
  dsimp only
  rw [if_pos hstarts, hread]
  dsimp only
  rw [haccept]
  rfl

theorem reads_stringReader (text : String) :
    Reads stringReader (Value.string text).chars text := by
  intro rest _
  rw [Value.chars]
  obtain ⟨s, hquote⟩ : ∃ s, octets (stringChars text) = octet '"' :: s :=
    ⟨_, octets_cons_of_le _ (by decide)⟩
  simp only [stringReader]
  refine scalarRun_octets hquote (by decide) ?_ ?_ (valueRun_string none text rest)
  · decide
  · rfl

theorem startsNumber_iff (b : UInt8) : startsNumber b = true ↔ StartsNumber b := by
  simp only [startsNumber, StartsNumber, Bool.or_eq_true, decide_eq_true_eq]

theorem ReadsNumber.scalarRun {α : Type} {wanted : String} {accept : Value → Except ReadError α}
    {negative : Bool} {cs : List Char} {n : Number} (h : ReadsNumber negative cs n) {a : α}
    (haccept : accept (.number n) = .ok a) {rest : List UInt8} (hrest : Ends rest) :
    scalarRun wanted startsNumber accept (octets (sign negative ++ cs) ++ rest) =
      .ok (a, rest) := by
  obtain ⟨b, s, hcs, hstart⟩ := h.starts
  exact scalarRun_octets hcs hstart.not_isSpace ((startsNumber_iff b).2 hstart) haccept
    (h.valueRun none hrest)

theorem ReadsBack.reads_floatReader {x y : FiniteFloat} (h : ReadsBack x y) :
    Reads floatReader (Value.number (.real x)).chars y := by
  intro rest hrest
  rw [Value.chars, chars_real]
  refine ReadsNumber.scalarRun h ?_ hrest
  simp only [Number.toFloat, FiniteFloat.ofFloat?_val]

theorem reads_octetReader (n : UInt8) :
    Reads octetReader (Value.ofInteger (.ofUInt64 n.toUInt64)).chars n := by
  obtain ⟨i, hi⟩ : ∃ i, i = Integer.ofUInt64 n.toUInt64 := ⟨_, rfl⟩
  have hlt := n.toNat_lt
  have hval : i.val = n.toNat := hi ▸ congrArg Nat.cast n.toNat_toUInt64
  rw [← hi]
  intro rest hrest
  rw [Value.ofInteger, Value.chars, Number.chars, integerChars_eq_sign]
  refine (readsNumber_integer i).scalarRun ?_ hrest
  dsimp only
  rw [if_pos (by omega), hval, Int.toNat_natCast, UInt8.ofNat_toNat]

/-- The text of a value that is not `null`. -/
def StartsFull (cs : List Char) : Prop :=
  ∃ b s, octets cs = b :: s ∧ isSpace b = false ∧ b ≠ octet 'n'

theorem Reads.optional {α : Type} {reader : Reader α} {cs : List Char} {a : α}
    (h : Reads reader cs a) (hcs : StartsFull cs) : Reads reader.optional cs (some a) := by
  intro rest hrest
  obtain ⟨b, s, hchars, hspace, hnull⟩ := hcs
  have hskip : skipSpace (octets cs ++ rest) = b :: (s ++ rest) := by
    rw [hchars]
    exact skipSpace_cons hspace _
  show optionalRun reader _ = _
  rw [optionalRun, hskip]
  dsimp only
  rw [if_neg hnull, h rest hrest]
  rfl

theorem startsFull_string (text : String) : StartsFull (Value.string text).chars := by
  rw [Value.chars]
  exact ⟨octet '"', _, octets_cons_of_le _ (by decide), by decide, by decide⟩

theorem startsFull_number (n : Number) : StartsFull (Value.number n).chars := by
  obtain ⟨m, -, negative, cs, heq, hread⟩ := exists_readsNumber n
  obtain ⟨b, s, hchars, hstart⟩ := hread.starts
  rw [Value.chars, heq]
  exact ⟨b, s, hchars, hstart.not_isSpace, hstart.ne (by decide) (by decide)⟩

end Json

namespace Record

open Json (Reads TakesAll Value)

/-- The records are the same up to floats: a float need only come back as a float. -/
structure SameUpToFloats (r r' : Record) : Prop where
  version : r'.version = r.version
  host : r'.host = r.host
  shortMessage : r'.shortMessage = r.shortMessage
  fullMessage : r'.fullMessage = r.fullMessage
  timestamp : r'.timestamp.isSome = r.timestamp.isSome
  level : r'.level = r.level
  additional : ∀ name, (r'.additional.get? name).map Value.eraseFloats =
    (r.additional.get? name).map Value.eraseFloats

/-- The fields of the record have names of their own, and a reader goes as deep as they do. -/
structure Readable (r : Record) : Prop where
  slots : ∀ e ∈ r.additional.entries, Slot.ofName? e.1 = none
  ordered : Value.MembersOrdered r.additional.entries
  depth : Value.membersDepth r.additional.entries ≤ Json.maxDepth - 1

theorem take_slot {draft : Draft} {slot : Slot} (h : draft.has slot = false) :
    draft.take slot.name = .ok (draft.slotReader slot) := by
  rw [Draft.take, Slot.ofName?_name]
  dsimp only
  rw [h]
  rfl

theorem takesAll_slot {draft draft' : Draft} {slot : Slot} {v : Value}
    (h : draft.has slot = false) (hreads : Reads (draft.slotReader slot) v.chars draft') :
    TakesAll Draft.take draft [(slot.name, v)] draft' :=
  ⟨_, draft', take_slot h, hreads, rfl⟩

/-- The draft of a record when only the slots that every record has were read. -/
def Draft.required (r : Record) : Draft where
  version := some r.version
  host := some r.host
  shortMessage := some r.shortMessage

theorem takesAll_required (r : Record) :
    TakesAll Draft.take {}
      [(Slot.version.name, .string r.version), (Slot.host.name, .string r.host),
        (Slot.shortMessage.name, .string r.shortMessage)]
      (Draft.required r) := by
  refine ⟨_, { version := some r.version }, take_slot rfl,
    (Json.reads_stringReader r.version).map fun text => ({ version := some text } : Draft), ?_⟩
  refine ⟨_, { version := some r.version, host := some r.host }, take_slot rfl,
    (Json.reads_stringReader r.host).map fun text =>
      ({ version := some r.version, host := some text } : Draft), ?_⟩
  exact takesAll_slot rfl ((Json.reads_stringReader r.shortMessage).map fun text =>
    ({ version := some r.version, host := some r.host, shortMessage := some text } : Draft))

theorem takesAll_fullMessage (draft : Draft) (h : draft.fullMessage = none)
    (fullMessage : Option String) :
    TakesAll Draft.take draft
      (fullMessage.map fun text => (Slot.fullMessage.name, Value.string text)).toList
      { draft with fullMessage := fullMessage.map some } := by
  cases fullMessage with
  | none =>
    show draft = { draft with fullMessage := none }
    rw [← h]
  | some text =>
    have hreads := (Json.reads_stringReader text).optional (Json.startsFull_string text)
    have htakes := hreads.map fun text => ({ draft with fullMessage := some text } : Draft)
    refine takesAll_slot ?_ htakes
    rw [Draft.has, h]
    rfl

theorem isSome_eq_of_rel {α β : Type} {R : α → β → Prop} {a : Option α} {b : Option β}
    (h : Option.Rel R a b) : a.isSome = b.isSome := by
  cases h <;> rfl

theorem exists_takesAll_timestamp (draft : Draft) (h : draft.timestamp = none)
    (timestamp : Option FiniteFloat) :
    ∃ timestamp' : Option FiniteFloat, Option.Rel Json.ReadsBack timestamp timestamp' ∧
      TakesAll Draft.take draft
        (timestamp.map fun x => (Slot.timestamp.name, Value.number (.real x))).toList
        { draft with timestamp := timestamp'.map some } := by
  cases timestamp with
  | none =>
    refine ⟨none, .none, ?_⟩
    show draft = { draft with timestamp := none }
    rw [← h]
  | some x =>
    obtain ⟨y, hy⟩ := Json.exists_readsBack x
    have hreads := hy.reads_floatReader.optional (Json.startsFull_number (.real x))
    have htakes := hreads.map fun x => ({ draft with timestamp := some x } : Draft)
    refine ⟨some y, .some hy, takesAll_slot ?_ htakes⟩
    rw [Draft.has, h]
    rfl

theorem takesAll_level (draft : Draft) (h : draft.level = none) (level : Option UInt8) :
    TakesAll Draft.take draft
      (level.map fun n => (Slot.level.name, Value.ofInteger (.ofUInt64 n.toUInt64))).toList
      { draft with level := level.map some } := by
  cases level with
  | none =>
    show draft = { draft with level := none }
    rw [← h]
  | some n =>
    have hreads := (Json.reads_octetReader n).optional (Json.startsFull_number _)
    refine takesAll_slot ?_ (hreads.map fun n => ({ draft with level := some n } : Draft))
    rw [Draft.has, h]
    rfl

def Draft.put (draft : Draft) (name : String) (v : Value) : Draft :=
  { draft with additional := draft.additional.insert name v }

theorem Draft.foldl_put (draft : Draft) (ms : List (String × Value)) :
    ms.foldl (fun d m => d.put m.1 m.2) draft = { draft with
      additional := ms.foldl (fun fields m => fields.insert m.1 m.2) draft.additional } := by
  induction ms generalizing draft with
  | nil => rfl
  | cons m ms ih => rw [List.foldl_cons, ih, List.foldl_cons, Draft.put]

theorem exists_takesAll_additional {r : Record} (h : r.Readable) (draft : Draft)
    (hempty : draft.additional = FieldMap.empty) :
    ∃ fields : Json.Fields, (∀ name, (fields.get? name).map Value.eraseFloats =
        (r.additional.get? name).map Value.eraseFloats) ∧
      TakesAll Draft.take draft r.additional.entries { draft with additional := fields } := by
  obtain ⟨ns, hreads, herase⟩ := Json.exists_readMembers _ h.ordered h.depth
  have hincreasing : Increasing ns := by
    rw [Json.increasing_iff_map_fst, ← hreads.map_fst, ← Json.increasing_iff_map_fst]
    exact r.additional.increasing
  have hentries := FieldMap.entries_foldl_insert (m := FieldMap.empty) hincreasing
  have htakes : TakesAll Draft.take draft r.additional.entries
      (ns.foldl (fun d m => d.put m.1 m.2) draft) :=
    hreads.takesAll (fun d m hm => by
      rw [Draft.take, h.slots m hm]
      rfl) draft
  rw [Draft.foldl_put, hempty] at htakes
  refine ⟨_, ?_, htakes⟩
  intro name
  rw [FieldMap.get?, FieldMap.get?, hentries, ← Value.lookup_eraseMembers,
    ← Value.lookup_eraseMembers, ← herase]
  rfl

/-- The members of a record make a complete draft of the same record. -/
theorem exists_takesAll_members {r : Record} (h : r.Readable) :
    ∃ draft r', TakesAll Draft.take {} r.members draft ∧ draft.complete = .ok r' ∧
      r.SameUpToFloats r' ∧ Option.Rel Json.ReadsBack r.timestamp r'.timestamp := by
  -- Only the time and the fields may hold floats, so only they may come back changed.
  let draft := { Draft.required r with fullMessage := r.fullMessage.map some }
  obtain ⟨timestamp, htimestamp, htakes⟩ := exists_takesAll_timestamp draft rfl r.timestamp
  let draft' := { draft with timestamp := timestamp.map some, level := r.level.map some }
  obtain ⟨fields, hfields, htakes'⟩ := exists_takesAll_additional h draft' rfl
  refine ⟨{ draft' with additional := fields },
    { r with timestamp := timestamp, additional := fields }, ?_, ?_, ?_, htimestamp⟩
  · exact ((((takesAll_required r).append (takesAll_fullMessage _ rfl r.fullMessage)).append
      htakes).append (takesAll_level _ rfl r.level)).append htakes'
  · have hjoin {α : Type} (o : Option α) : (o.map some).join = o := by cases o <;> rfl
    simp only [Draft.complete, Draft.required, draft, draft', hjoin]
  · exact
      { version := rfl
        host := rfl
        shortMessage := rfl
        fullMessage := rfl
        timestamp := (isSome_eq_of_rel htimestamp).symm
        level := rfl
        additional := hfields }

/-- **Records.** The text of a record is read back as the record, up to floats, and its time as what
the text of the time is read as. -/
theorem exists_read_bytes_readsBack {r : Record} (h : r.Readable) :
    ∃ r', read r.bytes = .ok r' ∧ r.SameUpToFloats r' ∧
      Option.Rel Json.ReadsBack r.timestamp r'.timestamp := by
  obtain ⟨draft, r', htakes, hcomplete, hsame, htimestamp⟩ := exists_takesAll_members h
  refine ⟨r', ?_, hsame, htimestamp⟩
  have hreads : Reads reader (Value.object r.members).chars r' := by
    intro rest _
    rw [Json.chars_object, Json.octets_cons_of_le _ (by decide), List.cons_append]
    show run (Json.octet '{' :: _) = _
    rw [run, Json.skipSpace_cons (by decide)]
    dsimp only
    rw [if_pos rfl, Json.members_octets htakes]
    dsimp only
    rw [hcomplete]
    rfl
  rw [bytes, text, Value.text, Json.utf8_ofList]
  exact hreads.readAll

theorem exists_read_bytes {r : Record} (h : r.Readable) :
    ∃ r', read r.bytes = .ok r' ∧ r.SameUpToFloats r' := by
  obtain ⟨r', hread, hsame, -⟩ := exists_read_bytes_readsBack h
  exact ⟨r', hread, hsame⟩

end Record

end Gelf
