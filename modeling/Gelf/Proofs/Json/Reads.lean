import Gelf.Json.Reader
import Gelf.Proofs.Json.NumberText

/-!
# Readers that take a printed value

`Reads` says that a reader takes a printed text off the front of whatever may follow it. The loops
over items and members keep this property: if each part is read, so is the whole.
-/

namespace Gelf.Json

/-- A reader takes the text in front of anything that may stand behind a value. -/
def Reads {α : Type} (reader : Reader α) (cs : List Char) (a : α) : Prop :=
  ∀ rest, Ends rest → reader.run (octets cs ++ rest) = .ok (a, rest)

theorem Reads.map {α β : Type} {reader : Reader α} {cs : List Char} {a : α} (h : Reads reader cs a)
    (f : α → β) : Reads (reader.map f) cs (f a) := fun rest hrest => by
  rw [Reader.map]
  dsimp only
  rw [h rest hrest]
  rfl

theorem Reads.readAll {α : Type} {reader : Reader α} {cs : List Char} {a : α}
    (h : Reads reader cs a) : reader.readAll (octets cs) = .ok a := by
  have hrun := h [] fun b hb => by cases hb
  rw [List.append_nil] at hrun
  rw [Reader.readAll, hrun]
  rfl

theorem skipSpace_cons {b : UInt8} (h : isSpace b = false) (s : List UInt8) :
    skipSpace (b :: s) = b :: s := by
  rw [skipSpace, List.dropWhile_cons_of_neg (by rw [h]; decide)]

theorem ends_cons {b : UInt8} (h : b = octet ',' ∨ b = octet '}' ∨ b = octet ']')
    (s : List UInt8) : Ends (b :: s) := by
  rintro b' ⟨⟩
  exact h

/-! ### Items -/

/-- The text of an item starts with neither space nor the end of the array. -/
def StartsItem (cs : List Char) : Prop :=
  ∃ b s, octets cs = b :: s ∧ isSpace b = false ∧ b ≠ octet ']'

theorem ends_itemsTail (vs : List Value) (rest : List UInt8) :
    Ends (octets (Value.itemsTail vs) ++ rest) := by
  cases vs with
  | nil => exact ends_cons (.inr (.inr rfl)) _
  | cons v vs =>
    rw [Value.itemsTail, octets_cons_of_le _ (by decide)]
    exact ends_cons (.inl rfl) _

theorem itemsFrom_close {α : Type} (item : Reader α) (taken : List α) {s r : List UInt8}
    (h : skipSpace s = octet ']' :: r) : itemsFrom item taken s = .ok (taken.reverse, r) := by
  rw [itemsFrom]
  split
  · rename_i hs
    rw [h] at hs
    cases hs
  · rename_i b r' hs
    rw [h] at hs
    cases hs
    exact if_pos rfl

theorem itemsFrom_comma {α : Type} {item : Reader α} {taken : List α} {s r q : List UInt8}
    {c : UInt8} (h : skipSpace s = octet ',' :: r) (hr : skipSpace r = c :: q)
    (hc : c ≠ octet ']') :
    itemsFrom item taken s =
      (item.run r).bind fun p => itemsFrom item (p.1 :: taken) p.2 := by
  rw [itemsFrom]
  split
  · rename_i hs
    rw [h] at hs
    cases hs
  · rename_i b r' hs
    rw [h] at hs
    cases hs
    rw [if_neg (by decide), if_pos rfl, hr]
    dsimp only
    rw [if_neg hc]
    split
    · rename_i e he
      rw [he]
      rfl
    · rename_i a t ht
      rw [ht]
      rfl

theorem itemsFrom_octets {α : Type} {item : Reader α} {vs : List Value} {as : List α}
    (h : List.Forall₂ (fun v a => Reads item v.chars a) vs as)
    (hstart : ∀ v ∈ vs, StartsItem v.chars) (taken : List α) (rest : List UInt8) :
    itemsFrom item taken (octets (Value.itemsTail vs) ++ rest) =
      .ok (taken.reverse ++ as, rest) := by
  induction h generalizing taken with
  | nil =>
    have hskip : skipSpace (octets (Value.itemsTail []) ++ rest) = octet ']' :: rest :=
      skipSpace_cons (by decide) rest
    rw [itemsFrom_close item taken hskip, List.append_nil]
  | @cons v a vs as hv _ ih =>
    obtain ⟨c, q, hchars, hspace, hbracket⟩ := hstart v List.mem_cons_self
    have hread := hv _ (ends_itemsTail vs rest)
    have hskip : skipSpace (octets (Value.itemsTail (v :: vs)) ++ rest) =
        octet ',' :: (octets v.chars ++ (octets (Value.itemsTail vs) ++ rest)) := by
      rw [Value.itemsTail, octets_cons_of_le _ (by decide), octets_append, List.cons_append,
        List.append_assoc]
      exact skipSpace_cons (by decide) _
    have hitem : skipSpace (octets v.chars ++ (octets (Value.itemsTail vs) ++ rest)) =
        c :: (q ++ (octets (Value.itemsTail vs) ++ rest)) := by
      rw [hchars]
      exact skipSpace_cons hspace _
    rw [itemsFrom_comma hskip hitem hbracket, hread, Except.bind,
      ih (fun w hw => hstart w (List.mem_cons_of_mem v hw)), List.reverse_cons, List.append_assoc]
    rfl

theorem items_start {α : Type} {item : Reader α} {s r : List UInt8} {b : UInt8}
    (h : skipSpace s = b :: r) (hb : b ≠ octet ']') :
    items item s = (item.run s).bind fun p => itemsFrom item [p.1] p.2 := by
  rw [items, h]
  dsimp only
  rw [if_neg hb]
  cases item.run s <;> rfl

/-- **Items.** The text of an array is read as its items are. -/
theorem items_octets {α : Type} {item : Reader α} {v : Value} {vs : List Value} {a : α}
    {as : List α} (hv : Reads item v.chars a)
    (h : List.Forall₂ (fun v a => Reads item v.chars a) vs as)
    (hstart : ∀ w ∈ v :: vs, StartsItem w.chars) (rest : List UInt8) :
    items item (octets (v.chars ++ Value.itemsTail vs) ++ rest) = .ok (a :: as, rest) := by
  obtain ⟨c, q, hchars, hspace, hbracket⟩ := hstart v List.mem_cons_self
  have hread := hv _ (ends_itemsTail vs rest)
  have hskip : skipSpace (octets v.chars ++ (octets (Value.itemsTail vs) ++ rest)) =
      c :: (q ++ (octets (Value.itemsTail vs) ++ rest)) := by
    rw [hchars]
    exact skipSpace_cons hspace _
  rw [octets_append, List.append_assoc, items_start hskip hbracket, hread]
  exact itemsFrom_octets h (fun w hw => hstart w (List.mem_cons_of_mem v hw)) [a] rest

/-! ### Members -/

/-- The members of an object are taken in one after another, each by the reader that the state
before it gives for its name. -/
def TakesAll {σ : Type} (take : Take σ) : σ → List (String × Value) → σ → Prop
  | s, [], t => s = t
  | s, (name, v) :: ms, t =>
    ∃ reader u, take s name = .ok reader ∧ Reads reader v.chars u ∧ TakesAll take u ms t

theorem TakesAll.append {σ : Type} {take : Take σ} {s t u : σ} {ms ns : List (String × Value)}
    (h : TakesAll take s ms t) (h' : TakesAll take t ns u) : TakesAll take s (ms ++ ns) u := by
  induction ms generalizing s with
  | nil =>
    cases h
    exact h'
  | cons m ms ih =>
    obtain ⟨reader, v, htake, hreads, hrest⟩ := h
    exact ⟨reader, v, htake, hreads, ih hrest⟩

theorem ends_membersTail (ms : List (String × Value)) (rest : List UInt8) :
    Ends (octets (Value.membersTail ms) ++ rest) := by
  cases ms with
  | nil => exact ends_cons (.inr (.inl rfl)) _
  | cons m ms =>
    rw [Value.membersTail, octets_cons_of_le _ (by decide)]
    exact ends_cons (.inl rfl) _

theorem member_octets {σ : Type} {take : Take σ} {s u : σ} {name : String} {v : Value}
    {reader : Reader σ} (htake : take s name = .ok reader) (hreads : Reads reader v.chars u)
    {rest : List UInt8} (hrest : Ends rest) :
    ∃ t, octets (stringChars name ++ ':' :: v.chars) ++ rest = octet '"' :: t ∧
      member take s t = .ok (u, rest) := by
  obtain ⟨t, heq, hstring⟩ := string_stringChars name (octets (':' :: v.chars) ++ rest)
  have hcolon : colon (octets (':' :: v.chars) ++ rest) = .ok (octets v.chars ++ rest) := by
    rw [octets_cons_of_le _ (by decide), List.cons_append, colon, skipSpace_cons (by decide)]
    exact if_pos rfl
  refine ⟨t, by rw [octets_append, List.append_assoc, heq], ?_⟩
  rw [member, hstring]
  dsimp only
  rw [htake]
  dsimp only
  rw [hcolon]
  exact hreads rest hrest

theorem membersFrom_close {σ : Type} (take : Take σ) (state : σ) {s r : List UInt8}
    (h : skipSpace s = octet '}' :: r) : membersFrom take state s = .ok (state, r) := by
  rw [membersFrom]
  split
  · rename_i hs
    rw [h] at hs
    cases hs
  · rename_i b r' hs
    rw [h] at hs
    cases hs
    exact if_pos rfl

theorem membersFrom_comma {σ : Type} {take : Take σ} {state : σ} {s r q : List UInt8}
    (h : skipSpace s = octet ',' :: r) (hr : skipSpace r = octet '"' :: q) :
    membersFrom take state s =
      (member take state q).bind fun p => membersFrom take p.1 p.2 := by
  rw [membersFrom]
  split
  · rename_i hs
    rw [h] at hs
    cases hs
  · rename_i b r' hs
    rw [h] at hs
    cases hs
    rw [if_neg (by decide), if_pos rfl]
    split
    · rename_i hs'
      rw [hr] at hs'
      cases hs'
    · rename_i c q' hs'
      rw [hr] at hs'
      cases hs'
      rw [if_pos rfl]
      split
      · rename_i e he
        rw [he]
        rfl
      · rename_i u t ht
        show membersFrom take u t = _
        rw [ht]
        rfl

theorem membersFrom_octets {σ : Type} {take : Take σ} {s t : σ} {ms : List (String × Value)}
    (h : TakesAll take s ms t) (rest : List UInt8) :
    membersFrom take s (octets (Value.membersTail ms) ++ rest) = .ok (t, rest) := by
  induction ms generalizing s with
  | nil =>
    cases h
    have hskip : skipSpace (octets (Value.membersTail []) ++ rest) = octet '}' :: rest :=
      skipSpace_cons (by decide) rest
    exact membersFrom_close take _ hskip
  | cons m ms ih =>
    obtain ⟨name, v⟩ := m
    obtain ⟨reader, u, htake, hreads, hmore⟩ := h
    obtain ⟨q, hname, hmember⟩ := member_octets htake hreads (ends_membersTail ms rest)
    have hskip : skipSpace (octets (Value.membersTail ((name, v) :: ms)) ++ rest) =
        octet ',' :: octet '"' :: q := by
      rw [← hname, Value.membersTail, octets_cons_of_le _ (by decide), List.cons_append,
        skipSpace_cons (by decide), ← List.append_assoc, ← octets_append, List.append_assoc]
      rfl
    rw [membersFrom_comma hskip (skipSpace_cons (by decide) q), hmember]
    exact ih hmore

/-- What stands behind the opening brace of an object. -/
def membersChars : List (String × Value) → List Char
  | [] => ['}']
  | (k, v) :: ms => stringChars k ++ ':' :: (v.chars ++ Value.membersTail ms)

theorem chars_object (ms : List (String × Value)) :
    (Value.object ms).chars = '{' :: membersChars ms := by
  cases ms with
  | nil => rw [Value.chars]; rfl
  | cons m ms => rw [Value.chars]; rfl

theorem members_start {σ : Type} {take : Take σ} {state : σ} {s r : List UInt8}
    (h : skipSpace s = octet '"' :: r) :
    members take state s = (member take state r).bind fun p => membersFrom take p.1 p.2 := by
  rw [members, h]
  dsimp only
  rw [if_neg (by decide), if_pos rfl]
  cases member take state r <;> rfl

/-- **Members.** The text of an object is taken in as its members are. -/
theorem members_octets {σ : Type} {take : Take σ} {s t : σ} {ms : List (String × Value)}
    (h : TakesAll take s ms t) (rest : List UInt8) :
    members take s (octets (membersChars ms) ++ rest) = .ok (t, rest) := by
  cases ms with
  | nil =>
    cases h
    rw [membersChars, octets_cons_of_le _ (by decide), List.cons_append, members,
      skipSpace_cons (by decide)]
    exact if_pos rfl
  | cons m ms =>
    obtain ⟨name, v⟩ := m
    obtain ⟨reader, u, htake, hreads, hmore⟩ := h
    obtain ⟨q, hname, hmember⟩ := member_octets htake hreads (ends_membersTail ms rest)
    have htext : octets (membersChars ((name, v) :: ms)) ++ rest = octet '"' :: q := by
      rw [← hname, membersChars, ← List.append_assoc, ← octets_append, List.append_assoc]
      rfl
    rw [htext, members_start (skipSpace_cons (by decide) q), hmember]
    exact membersFrom_octets hmore rest

end Gelf.Json
