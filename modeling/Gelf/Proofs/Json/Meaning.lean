import Gelf.Proofs.Json.Leaves

/-!
# What texts of the grammar mean

A tree stands for a value when it is no deeper than values may be and its numbers are in range, and
a reader of values gives exactly that value for every text of the tree. The loops over items and
members are told how to read, so what they give is said for any reader: `Follows` ties it to a
function on trees, and the loops over the parts of a tree become `mapM` and `foldlM`.
-/

namespace Gelf.Json

open Grammar

/-! ### Values of trees -/

/-- The number of a literal, which has none when it is beyond the greatest float. -/
def number? (literal : List Char) : Option Number :=
  match valueRun none (octets literal) with
  | .ok (.number n, _) => some n
  | _ => none

/-- The value of a tree with at most `d` arrays and objects inside each other. Of the members of an
object that have one name the last one stays. -/
def Tree.value? : Nat → Tree → Option Value
  | _, .null => some .null
  | _, .bool b => some (.bool b)
  | _, .number literal => (number? literal).map .number
  | _, .string s => some (.string s)
  | 0, .array _ => none
  | d + 1, .array items => (items.mapM (value? d)).map .array
  | 0, .object _ => none
  | d + 1, .object members =>
    (members.mapM fun m => (value? d m.2).map (Prod.mk m.1)).map fun ms => .ofFields (.ofList ms)

/-- The members of an object with their values, in the order of the text and as often as they
occur. -/
def memberValues? (d : Nat) (members : List (String × Tree)) : Option (List (String × Value)) :=
  members.mapM fun m => (m.2.value? d).map (Prod.mk m.1)

/-! ### Results -/

theorem toOption_map {ε α β : Type} (x : Except ε α) (f : α → β) :
    (x.map f).toOption = x.toOption.map f := by
  cases x <;> rfl

theorem toOption_bind {ε α β : Type} (x : Except ε α) (f : α → Except ε β) :
    (x.bind f).toOption = x.toOption.bind fun a => (f a).toOption := by
  cases x <;> rfl

theorem eq_ok_iff_toOption {ε α : Type} {x : Except ε α} {a : α} :
    x = .ok a ↔ x.toOption = some a := by
  cases x <;> simp [Except.toOption]

/-- Values that are computed one after another, each of them just before its step, may as well be
computed first. -/
theorem foldlM_bind_eq {α β σ : Type} (g : α → Option β) (step : σ → β → Option σ) (as : List α)
    (s : σ) :
    as.foldlM (fun s a => (g a).bind (step s)) s = (as.mapM g).bind fun bs => bs.foldlM step s := by
  induction as generalizing s with
  | nil => rfl
  | cons a as ih =>
    rw [List.foldlM_cons, List.mapM_cons]
    cases g a with
    | none => rfl
    | some b =>
      simp only [Option.bind_eq_bind, Option.bind_some, ih, Option.pure_def, Option.bind_assoc,
        List.foldlM_cons]
      exact Option.bind_comm _ _

/-! ### Readers that follow the grammar -/

/-- Of a text that the grammar derives the reader takes what the derivation takes, and gives what
`f` makes of the tree. -/
structure Follows {α : Type} (reader : Reader α) (f : Tree → Option α) : Prop where
  toOption_run : ∀ {s t rest : List Char} {v : Tree}, Skips s t → Derives t v rest →
    Separates (octets rest) →
      (reader.run (octets s)).toOption = (f v).map fun a => (a, octets rest)

theorem Follows.map {α β : Type} {reader : Reader α} {f : Tree → Option α} (h : Follows reader f)
    (g : α → β) : Follows (reader.map g) fun v => (f v).map g where
  toOption_run {s t rest v} hs hv hrest := by
    show ((reader.run (octets s)).map _).toOption = _
    rw [toOption_map, h.toOption_run hs hv hrest, Option.map_map, Option.map_map]
    rfl

/-- What is made of the value may be changed after it was made. -/
theorem Follows.bind_map {α β γ : Type} {reader : Reader α} {f : Tree → Option γ}
    {g : γ → Option α} (h : Follows reader fun v => (f v).bind g) (k : α → β) :
    Follows (reader.map k) fun v => (f v).bind fun c => (g c).map k := by
  have hmap := h.map k
  simp only [Option.map_bind, Function.comp_def] at hmap
  exact hmap

/-- The octet with which a text of the tree begins. -/
def Tree.Starts : Tree → UInt8 → Prop
  | .null, b => b = octet 'n'
  | .bool true, b => b = octet 't'
  | .bool false, b => b = octet 'f'
  | .number _, b => StartsNumber b
  | .string _, b => b = octet '"'
  | .array _, b => b = octet '['
  | .object _, b => b = octet '{'

theorem Grammar.Derives.exists_starts {t rest : List Char} {v : Tree} (h : Derives t v rest) :
    ∃ b s, octets t = b :: s ∧ v.Starts b := by
  cases h with
  | null => exact ⟨_, _, octets_cons_of_le _ (by decide), rfl⟩
  | true => exact ⟨_, _, octets_cons_of_le _ (by decide), rfl⟩
  | false => exact ⟨_, _, octets_cons_of_le _ (by decide), rfl⟩
  | number hliteral =>
    obtain ⟨negative, c, cs, rfl, hc, -⟩ := hliteral.exists_number
    have hle := toNat_mem_of_isDigit hc
    cases negative with
    | true => exact ⟨octet '-', _, octets_cons_of_le _ (by decide), .inl rfl⟩
    | false => exact ⟨octet c, _, octets_cons_of_le _ (by omega), .inr (isDigit_octet hc)⟩
  | string _ => exact ⟨_, _, octets_cons_of_le _ (by decide), rfl⟩
  | emptyArray _ => exact ⟨_, _, octets_cons_of_le _ (by decide), rfl⟩
  | array _ => exact ⟨_, _, octets_cons_of_le _ (by decide), rfl⟩
  | emptyObject _ => exact ⟨_, _, octets_cons_of_le _ (by decide), rfl⟩
  | object _ => exact ⟨_, _, octets_cons_of_le _ (by decide), rfl⟩

theorem Tree.Starts.not_isSpace {v : Tree} {b : UInt8} (h : v.Starts b) : isSpace b = false := by
  cases v
  case number => exact StartsNumber.not_isSpace h
  case bool b' =>
    cases b' <;>
      · cases h
        decide
  case null | string | array | object =>
    cases h
    decide

theorem Tree.Starts.ne_bracket {v : Tree} {b : UInt8} (h : v.Starts b) : b ≠ octet ']' := by
  cases v
  case number => exact StartsNumber.ne h (by decide) (by decide)
  case bool b' =>
    cases b' <;>
      · cases h
        decide
  case null | string | array | object =>
    cases h
    decide

/-- Only `null` begins like `null`. -/
theorem Tree.Starts.eq_null {v : Tree} (h : v.Starts (octet 'n')) : v = .null := by
  cases v
  case null => rfl
  case number => exact absurd rfl (StartsNumber.ne h (by decide) (by decide))
  case bool b => cases b <;> cases h
  case string | array | object => cases h

theorem Grammar.Skips.exists_starts {s t rest : List Char} {v : Tree} (hs : Skips s t)
    (h : Derives t v rest) :
    ∃ b r, octets t = b :: r ∧ skipSpace (octets s) = b :: r ∧ v.Starts b := by
  obtain ⟨b, r, hoctets, hstarts⟩ := h.exists_starts
  refine ⟨b, r, hoctets, ?_, hstarts⟩
  rw [hs.skipSpace_eq, hoctets, skipSpace_cons hstarts.not_isSpace]

/-! ### Items -/

/-- What stands behind an item: the end of the array, or more items behind a comma. -/
inductive ItemsTail : List Char → List Tree → List Char → Prop
  | close {u rest : List Char} (hu : Skips u (']' :: rest)) : ItemsTail u [] rest
  | more {u s rest : List Char} {vs : List Tree} (hu : Skips u (',' :: s)) (h : Items s vs rest) :
    ItemsTail u vs rest

theorem Grammar.Items.exists_cons {s rest : List Char} {vs : List Tree} (h : Items s vs rest) :
    ∃ v vs' t u, vs = v :: vs' ∧ Skips s t ∧ Derives t v u ∧ ItemsTail u vs' rest := by
  cases h with
  | last hs hv hu => exact ⟨_, [], _, _, rfl, hs, hv, .close hu⟩
  | next hs hv hu hrest => exact ⟨_, _, _, _, rfl, hs, hv, .more hu hrest⟩

theorem ItemsTail.separates {u rest : List Char} {vs : List Tree} (h : ItemsTail u vs rest) :
    Separates (octets u) := by
  cases h with
  | close hu => exact hu.separates_punctuation (.inr (.inr rfl))
  | more hu _ => exact hu.separates_punctuation (.inl rfl)

section Items

variable {α : Type} {item : Reader α} {f : Tree → Option α}

theorem ItemsTail.itemsFrom_eq (hitem : Follows item f) {u rest : List Char} {vs : List Tree}
    (h : ItemsTail u vs rest) (taken : List α) :
    (itemsFrom item taken (octets u)).toOption =
      (vs.mapM f).map fun as => (taken.reverse ++ as, octets rest) := by
  induction vs generalizing u taken with
  | nil =>
    cases h with
    | close hu =>
      rw [itemsFrom_close item taken (hu.skipSpace_punctuation (by decide) (by decide)),
        List.mapM_nil]
      simp [Except.toOption]
    | more _ hitems =>
      obtain ⟨v, vs, t, u, hvs, -⟩ := hitems.exists_cons
      cases hvs
  | cons v vs ih =>
    cases h with
    | more hu hitems =>
      obtain ⟨v', vs', t, u', heq, hs, hv, htail⟩ := hitems.exists_cons
      cases heq
      obtain ⟨b, r, -, hskip, hstarts⟩ := hs.exists_starts hv
      rw [itemsFrom_comma (hu.skipSpace_punctuation (by decide) (by decide)) hskip
        hstarts.ne_bracket, toOption_bind, hitem.toOption_run hs hv htail.separates, List.mapM_cons]
      cases f v with
      | none => rfl
      | some a =>
        simp only [Option.map_some, Option.bind_some, ih htail, Option.bind_eq_bind]
        cases vs.mapM f <;> simp

theorem Grammar.Items.items_eq (hitem : Follows item f) {s rest : List Char} {vs : List Tree}
    (h : Items s vs rest) :
    (items item (octets s)).toOption = (vs.mapM f).map fun as => (as, octets rest) := by
  obtain ⟨v, vs', t, u, rfl, hs, hv, htail⟩ := h.exists_cons
  obtain ⟨b, r, -, hskip, hstarts⟩ := hs.exists_starts hv
  rw [items_start hskip hstarts.ne_bracket, toOption_bind, hitem.toOption_run hs hv htail.separates,
    List.mapM_cons]
  cases f v with
  | none => rfl
  | some a =>
    simp only [Option.map_some, Option.bind_some, htail.itemsFrom_eq hitem, Option.bind_eq_bind]
    cases vs'.mapM f <;> simp

theorem Grammar.Derives.exists_items_eq (hitem : Follows item f) {t rest : List Char}
    {vs : List Tree} (h : Derives t (.array vs) rest) :
    ∃ r, octets t = octet '[' :: r ∧
      (items item r).toOption = (vs.mapM f).map fun as => (as, octets rest) := by
  cases h with
  | emptyArray h =>
    refine ⟨_, octets_cons_of_le _ (by decide), ?_⟩
    rw [items, h.skipSpace_punctuation (by decide) (by decide)]
    rfl
  | array h => exact ⟨_, octets_cons_of_le _ (by decide), h.items_eq hitem⟩

end Items

/-! ### Members -/

inductive MembersTail : List Char → List (String × Tree) → List Char → Prop
  | close {u rest : List Char} (hu : Skips u ('}' :: rest)) : MembersTail u [] rest
  | more {u s rest : List Char} {ms : List (String × Tree)} (hu : Skips u (',' :: s))
    (h : Members s ms rest) : MembersTail u ms rest

theorem Grammar.Members.exists_cons {s rest : List Char} {ms : List (String × Tree)}
    (h : Members s ms rest) :
    ∃ m ms' u, ms = m :: ms' ∧ Member s m u ∧ MembersTail u ms' rest := by
  cases h with
  | last hm hu => exact ⟨_, [], _, rfl, hm, .close hu⟩
  | next hm hu hrest => exact ⟨_, _, _, rfl, hm, .more hu hrest⟩

theorem MembersTail.separates {u rest : List Char} {ms : List (String × Tree)}
    (h : MembersTail u ms rest) : Separates (octets u) := by
  cases h with
  | close hu => exact hu.separates_punctuation (.inr (.inl rfl))
  | more hu _ => exact hu.separates_punctuation (.inl rfl)

/-- Members are taken in as `step` does it: a name that is refused has no step, and otherwise the
reader of the value follows it. -/
structure FollowsMembers {σ : Type} (take : Take σ) (step : σ → String × Tree → Option σ) :
    Prop where
  refused : ∀ {s name e}, take s name = .error e → ∀ v, step s (name, v) = none
  taken : ∀ {s name reader}, take s name = .ok reader → Follows reader fun v => step s (name, v)

section Members

variable {σ : Type} {take : Take σ} {step : σ → String × Tree → Option σ}

theorem Grammar.Member.exists_member_eq (htake : FollowsMembers take step) {s u : List Char}
    {m : String × Tree} (h : Member s m u) (hu : Separates (octets u)) :
    ∃ q, skipSpace (octets s) = octet '"' :: q ∧
      ∀ state, (member take state q).toOption = (step state m).map fun t => (t, octets u) := by
  cases h with
  | @mk _ t u' s' t' _ name v hs hname hu' hs' hv =>
    refine ⟨octets t, hs.skipSpace_punctuation (by decide) (by decide), fun state => ?_⟩
    have hcolon : colon (octets u') = .ok (octets s') := by
      rw [colon, hu'.skipSpace_punctuation (by decide) (by decide)]
      exact if_pos rfl
    rw [member, hname.string_eq]
    dsimp only
    cases htaken : take state (String.ofList name) with
    | error e =>
      rw [htake.refused htaken]
      rfl
    | ok reader =>
      dsimp only
      rw [hcolon]
      exact (htake.taken htaken).toOption_run hs' hv hu

theorem MembersTail.membersFrom_eq (htake : FollowsMembers take step) {u rest : List Char}
    {ms : List (String × Tree)} (h : MembersTail u ms rest) (state : σ) :
    (membersFrom take state (octets u)).toOption =
      (ms.foldlM step state).map fun t => (t, octets rest) := by
  induction ms generalizing u state with
  | nil =>
    cases h with
    | close hu =>
      rw [membersFrom_close take state (hu.skipSpace_punctuation (by decide) (by decide))]
      rfl
    | more _ hmembers =>
      obtain ⟨m, ms, u, hms, -⟩ := hmembers.exists_cons
      cases hms
  | cons m ms ih =>
    cases h with
    | more hu hmembers =>
      obtain ⟨m', ms', u', heq, hm, htail⟩ := hmembers.exists_cons
      cases heq
      obtain ⟨q, hskip, hmember⟩ := hm.exists_member_eq htake htail.separates
      rw [membersFrom_comma (hu.skipSpace_punctuation (by decide) (by decide)) hskip,
        toOption_bind, hmember, List.foldlM_cons]
      cases step state m with
      | none => rfl
      | some t => exact ih htail t

theorem Grammar.Members.members_eq (htake : FollowsMembers take step) {s rest : List Char}
    {ms : List (String × Tree)} (h : Members s ms rest) (state : σ) :
    (members take state (octets s)).toOption =
      (ms.foldlM step state).map fun t => (t, octets rest) := by
  obtain ⟨m, ms', u, rfl, hm, htail⟩ := h.exists_cons
  obtain ⟨q, hskip, hmember⟩ := hm.exists_member_eq htake htail.separates
  rw [members_start hskip, toOption_bind, hmember, List.foldlM_cons]
  cases step state m with
  | none => rfl
  | some t => exact htail.membersFrom_eq htake t

theorem Grammar.Derives.exists_members_eq (htake : FollowsMembers take step) {t rest : List Char}
    {ms : List (String × Tree)} (h : Derives t (.object ms) rest) :
    ∃ r, octets t = octet '{' :: r ∧ ∀ state, (members take state r).toOption =
      (ms.foldlM step state).map fun u => (u, octets rest) := by
  cases h with
  | emptyObject h =>
    refine ⟨_, octets_cons_of_le _ (by decide), ?_⟩
    intro state
    rw [members, h.skipSpace_punctuation (by decide) (by decide)]
    rfl
  | object h => exact ⟨_, octets_cons_of_le _ (by decide), h.members_eq htake⟩

end Members

/-! ### Values -/

theorem Grammar.Literal.valueRun_eq {literal : List Char} (h : Literal literal)
    (inner : Option (Reader Value)) {rest : List UInt8} (hrest : Separates rest) :
    (valueRun inner (octets literal ++ rest)).toOption =
      (number? literal).map fun n => (.number n, rest) := by
  obtain ⟨negative, c, cs, rfl, hc, x, hx⟩ := h.exists_number
  have halone := valueRun_number none negative hc cs []
  rw [hx [] separates_nil, List.append_nil] at halone
  rw [number?, halone, valueRun_number inner negative hc, hx rest hrest]
  cases x <;> rfl

theorem valueRun_congr (inner : Option (Reader Value)) {s t : List UInt8}
    (h : skipSpace s = skipSpace t) : valueRun inner s = valueRun inner t := by
  unfold valueRun
  rw [h]

/-- The members of an object are taken in one after another, and the last one of a name stays. -/
theorem followsMembers_insert {item : Reader Value} {f : Tree → Option Value}
    (hitem : Follows item f) :
    FollowsMembers (fun m name => .ok (item.map fun v => FieldMap.insert m name v))
      fun m p => (f p.2).map fun v => FieldMap.insert m p.1 v where
  refused h := by cases h
  taken h := by
    cases h
    exact hitem.map _

theorem foldlM_insert (f : Tree → Option Value) (ms : List (String × Tree)) :
    ms.foldlM (fun m p => (f p.2).map fun v => FieldMap.insert m p.1 v) FieldMap.empty =
      (ms.mapM fun m => (f m.2).map (Prod.mk m.1)).map FieldMap.ofList := by
  let put (m : FieldMap Value) (p : String × Value) : Option (FieldMap Value) :=
    pure (m.insert p.1 p.2)
  have hstep : (fun (m : FieldMap Value) p => (f p.2).map fun v => m.insert p.1 v) =
      fun m (p : String × Tree) => ((f p.2).map (Prod.mk p.1)).bind (put m) := by
    funext m p
    cases f p.2 <;> rfl
  rw [hstep, foldlM_bind_eq]
  simp only [put, List.foldlM_pure]
  cases ms.mapM fun m => (f m.2).map (Prod.mk m.1) <;> rfl

/-- **Values.** A reader of values gives the value of every tree, for each of its texts. -/
theorem follows_value (d : Nat) : Follows (value d) (Tree.value? d) := by
  induction d using Nat.strong_induction_on with
  | h d ih =>
    constructor
    intro s t rest v hs hv hrest
    obtain ⟨inner, hinner⟩ := exists_run_value d
    have hrun : (value d).run (octets s) = (value d).run (octets t) := by
      rw [hinner, valueRun_congr inner hs.skipSpace_eq]
    rw [hrun]
    cases v with
    | null =>
      cases hv
      have htext : octets ('n' :: 'u' :: 'l' :: 'l' :: rest) =
          octets Value.null.chars ++ octets rest := by
        rw [Value.chars, ← octets_append]
        rfl
      rw [hinner, htext, valueRun_null, Tree.value?]
      rfl
    | bool b =>
      have htext : octets t = octets (Value.bool b).chars ++ octets rest := by
        cases hv <;>
          · rw [Value.chars, ← octets_append]
            rfl
      rw [hinner, htext, valueRun_bool, Tree.value?]
      rfl
    | number literal =>
      cases hv with
      | number hliteral =>
        rw [hinner, octets_append, hliteral.valueRun_eq inner hrest, Tree.value?, Option.map_map]
        rfl
    | string text =>
      cases hv with
      | string hquoted =>
        rw [hinner, octets_cons_of_le _ (by decide), valueRun_quote, hquoted.string_eq,
          Tree.value?]
        rfl
    | array items =>
      cases d with
      | zero =>
        obtain ⟨b, r, hoctets, rfl⟩ := hv.exists_starts
        have hnone : (value 0).run = valueRun none := rfl
        rw [hoctets, hnone, valueRun_bracket, Tree.value?]
        rfl
      | succ d =>
        obtain ⟨r, hoctets, hitems⟩ := hv.exists_items_eq (ih d (Nat.lt_succ_self d))
        have hsome : (value (d + 1)).run = valueRun (some (value d)) := rfl
        rw [hoctets, hsome, valueRun_bracket]
        dsimp only
        rw [toOption_map, hitems, Tree.value?, Option.map_map, Option.map_map]
        rfl
    | object members =>
      cases d with
      | zero =>
        obtain ⟨b, r, hoctets, rfl⟩ := hv.exists_starts
        have hnone : (value 0).run = valueRun none := rfl
        rw [hoctets, hnone, valueRun_brace, Tree.value?]
        rfl
      | succ d =>
        have htake := followsMembers_insert (ih d (Nat.lt_succ_self d))
        obtain ⟨r, hoctets, hmembers⟩ := hv.exists_members_eq htake
        have hsome : (value (d + 1)).run = valueRun (some (value d)) := rfl
        rw [hoctets, hsome, valueRun_brace]
        dsimp only
        rw [toOption_map, hmembers, foldlM_insert, Tree.value?, Option.map_map, Option.map_map,
          Option.map_map]
        rfl

theorem readAll_eq_bind {α : Type} (reader : Reader α) (s : List UInt8) :
    reader.readAll s = (reader.run s).bind fun p =>
      if (skipSpace p.2).isEmpty then .ok p.1 else .error .trailingText := by
  rw [Reader.readAll]
  cases reader.run s <;> rfl

/-- The whole of a text is read as its tree is. -/
theorem Follows.readAll {α : Type} {reader : Reader α} {f : Tree → Option α}
    (h : Follows reader f) {text : String} {v : Tree} (htext : IsText text v) :
    (reader.readAll (Text.utf8 text)).toOption = f v := by
  obtain ⟨s, rest, hs, hv, hrest⟩ := htext
  have hread := h.toOption_run hs hv (hrest.separates separates_nil)
  have hempty : (skipSpace (octets rest)).isEmpty = true := by
    rw [hrest.skipSpace_eq]
    rfl
  rw [utf8_eq_octets, readAll_eq_bind, toOption_bind, hread]
  cases f v with
  | none => rfl
  | some a =>
    simp only [Option.map_some, Option.bind_some, if_pos hempty]
    rfl

end Gelf.Json
