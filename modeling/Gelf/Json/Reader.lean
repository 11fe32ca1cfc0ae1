import Gelf.Json.Scan

/-!
# Reading JSON text

A reader takes a value off the front of a list of octets. Arrays and objects are read by two loops
that are told how to read an item and how to take a member, so that the same loop serves a value, an
object read member by member, and a record with fields of its own. The loops end because a reader
never leaves more than it was given.
-/

namespace Gelf.Json

/-- Takes a value off the front of a text and gives the rest. -/
structure Reader (α : Type) where
  run : List UInt8 → Except ReadError (α × List UInt8)
  length_le : ∀ {s a r}, run s = .ok (a, r) → r.length ≤ s.length

namespace Reader

def map {α β : Type} (f : α → β) (reader : Reader α) : Reader β where
  run s := (reader.run s).map fun (a, r) => (f a, r)
  length_le {s b r} h := by
    cases hs : reader.run s with
    | error e => simp [hs, Except.map] at h
    | ok p =>
      simp only [hs, Except.map, Except.ok.injEq, Prod.mk.injEq] at h
      exact h.2 ▸ reader.length_le hs

/-- Reads a whole text: after the value only space may follow. -/
def readAll {α : Type} (reader : Reader α) (s : List UInt8) : Except ReadError α :=
  match reader.run s with
  | .error e => .error e
  | .ok (a, r) => if (skipSpace r).isEmpty then .ok a else .error .trailingText

end Reader

/-! ### Items of an array -/

/-- What follows an item: the end of the array, or a comma and another item. The items read so far
are kept in reverse. -/
def itemsFrom {α : Type} (item : Reader α) (taken : List α) (s : List UInt8) :
    Except ReadError (List α × List UInt8) :=
  match hs : skipSpace s with
  | [] => .error .endInArray
  | b :: r =>
    if b = octet ']' then .ok (taken.reverse, r)
    else if b = octet ',' then
      match skipSpace r with
      | [] => .error .endInValue
      | c :: _ =>
        if c = octet ']' then .error .trailingComma
        else match h : item.run r with
          | .error e => .error e
          | .ok (a, t) =>
            have : t.length < s.length := by
              have h₁ := item.length_le h
              have h₂ := length_skipSpace_le s
              rw [hs, List.length_cons] at h₂
              omega
            itemsFrom item (a :: taken) t
    else .error .expectedCommaInArray
termination_by s.length

def items {α : Type} (item : Reader α) (s : List UInt8) :
    Except ReadError (List α × List UInt8) :=
  match skipSpace s with
  | [] => .error .endInArray
  | b :: r =>
    if b = octet ']' then .ok ([], r)
    else match item.run s with
      | .error e => .error e
      | .ok (a, t) => itemsFrom item [a] t

theorem itemsFrom_length_le {α : Type} {item : Reader α} {taken as : List α}
    {s r : List UInt8} (h : itemsFrom item taken s = .ok (as, r)) : r.length ≤ s.length := by
  fun_induction itemsFrom item taken s with
  | case1 => cases h
  | case2 taken s r' hs =>
    cases h
    have hle := length_skipSpace_le s
    rw [hs, List.length_cons] at hle
    omega
  | case3 => cases h
  | case4 => cases h
  | case5 => cases h
  | case6 =>
    rename_i hlt ih
    exact Nat.le_trans (ih h) (Nat.le_of_lt hlt)
  | case7 => cases h

theorem items_length_le {α : Type} {item : Reader α} {as : List α} {s r : List UInt8}
    (h : items item s = .ok (as, r)) : r.length ≤ s.length := by
  unfold items at h
  split at h
  · cases h
  · rename_i b r' hs
    have hle := length_skipSpace_le s
    rw [hs, List.length_cons] at hle
    split at h
    · cases h
      omega
    · split at h
      · cases h
      · rename_i ht
        exact Nat.le_trans (itemsFrom_length_le h) (item.length_le ht)

/-! ### Members of an object -/

/-- How the members of an object are taken in: given what was taken so far and the name of the next
member, a reader of its value, or a refusal of the name. -/
abbrev Take (σ : Type) := σ → String → Except ReadError (Reader σ)

def colon (s : List UInt8) : Except ReadError (List UInt8) :=
  match skipSpace s with
  | [] => .error .endInObject
  | b :: r => if b = octet ':' then .ok r else .error .expectedColon

/-- One member, behind the opening quote of its name. -/
def member {σ : Type} (take : Take σ) (state : σ) (s : List UInt8) :
    Except ReadError (σ × List UInt8) :=
  match string s with
  | .error e => .error e
  | .ok (name, r) =>
    match take state name with
    | .error e => .error e
    | .ok reader =>
      match colon r with
      | .error e => .error e
      | .ok t => reader.run t

theorem colon_length_le {s r : List UInt8} (h : colon s = .ok r) : r.length ≤ s.length := by
  unfold colon at h
  split at h
  · cases h
  · rename_i b r' hs
    have hle := length_skipSpace_le s
    rw [hs, List.length_cons] at hle
    split at h <;> cases h
    omega

theorem member_length_le {σ : Type} {take : Take σ} {state state' : σ} {s r : List UInt8}
    (h : member take state s = .ok (state', r)) : r.length ≤ s.length := by
  unfold member at h
  split at h
  · cases h
  · rename_i hname
    split at h
    · cases h
    · rename_i reader _
      split at h
      · cases h
      · rename_i hcolon
        exact Nat.le_trans (reader.length_le h)
          (Nat.le_trans (colon_length_le hcolon) (string_length_le hname))

/-- What follows a member: the end of the object, or a comma and another member. -/
def membersFrom {σ : Type} (take : Take σ) (state : σ) (s : List UInt8) :
    Except ReadError (σ × List UInt8) :=
  match hs : skipSpace s with
  | [] => .error .endInObject
  | b :: r =>
    if b = octet '}' then .ok (state, r)
    else if b = octet ',' then
      match hr : skipSpace r with
      | [] => .error .endInValue
      | c :: q =>
        if c = octet '"' then
          match h : member take state q with
          | .error e => .error e
          | .ok (state', t) =>
            have : t.length < s.length := by
              have h₁ := member_length_le h
              have h₂ := length_skipSpace_le s
              have h₃ := length_skipSpace_le r
              rw [hs, List.length_cons] at h₂
              rw [hr, List.length_cons] at h₃
              omega
            membersFrom take state' t
        else if c = octet '}' then .error .trailingComma
        else .error .nameNotString
    else .error .expectedCommaInObject
termination_by s.length

def members {σ : Type} (take : Take σ) (state : σ) (s : List UInt8) :
    Except ReadError (σ × List UInt8) :=
  match skipSpace s with
  | [] => .error .endInObject
  | b :: r =>
    if b = octet '}' then .ok (state, r)
    else if b = octet '"' then
      match member take state r with
      | .error e => .error e
      | .ok (state', t) => membersFrom take state' t
    else .error .nameNotString

theorem membersFrom_length_le {σ : Type} {take : Take σ} {state state' : σ} {s r : List UInt8}
    (h : membersFrom take state s = .ok (state', r)) : r.length ≤ s.length := by
  fun_induction membersFrom take state s with
  | case1 => cases h
  | case2 state s r' hs =>
    cases h
    have hle := length_skipSpace_le s
    rw [hs, List.length_cons] at hle
    omega
  | case3 => cases h
  | case4 => cases h
  | case5 =>
    rename_i hlt ih
    exact Nat.le_trans (ih h) (Nat.le_of_lt hlt)
  | case6 => cases h
  | case7 => cases h
  | case8 => cases h

theorem members_length_le {σ : Type} {take : Take σ} {state state' : σ} {s r : List UInt8}
    (h : members take state s = .ok (state', r)) : r.length ≤ s.length := by
  unfold members at h
  split at h
  · cases h
  · rename_i b r' hs
    have hle := length_skipSpace_le s
    rw [hs, List.length_cons] at hle
    split at h
    · cases h
      omega
    · split at h
      · split at h
        · cases h
        · rename_i hm
          have h₁ := membersFrom_length_le h
          have h₂ := member_length_le hm
          omega
      · cases h

/-! ### Values -/

/-- Reads a value. What stands inside an array or object is read by `inner`. Without it, the value
is already as deep as values may be. -/
def valueRun (inner : Option (Reader Value)) (s : List UInt8) :
    Except ReadError (Value × List UInt8) :=
  match skipSpace s with
  | [] => .error .endInValue
  | b :: r =>
    if b = octet 'n' then (literal ['u', 'l', 'l'] r).map fun t => (.null, t)
    else if b = octet 't' then (literal ['r', 'u', 'e'] r).map fun t => (.bool true, t)
    else if b = octet 'f' then (literal ['a', 'l', 's', 'e'] r).map fun t => (.bool false, t)
    else if b = octet '-' then (number true r).map fun (n, t) => (.number n, t)
    else if isDigit b then (number false (b :: r)).map fun (n, t) => (.number n, t)
    else if b = octet '"' then (string r).map fun (text, t) => (.string text, t)
    else if b = octet '[' then
      match inner with
      | none => .error .tooDeep
      | some item => (items item r).map fun (vs, t) => (.array vs, t)
    else if b = octet '{' then
      match inner with
      | none => .error .tooDeep
      | some item =>
        (members (fun m name => .ok (item.map fun v => FieldMap.insert m name v))
          FieldMap.empty r).map fun (m, t) => (.ofFields m, t)
    else .error .expectedValue

theorem length_le_of_map {α β : Type} {x : Except ReadError (α × List UInt8)} {f : α → β}
    {b : β} {r : List UInt8} {n : Nat} (hx : ∀ {a t}, x = .ok (a, t) → t.length ≤ n)
    (h : x.map (fun (a, t) => (f a, t)) = .ok (b, r)) : r.length ≤ n := by
  cases x with
  | error e => cases h
  | ok p =>
    simp only [Except.map, Except.ok.injEq, Prod.mk.injEq] at h
    exact h.2 ▸ hx rfl

theorem valueRun_length_le {inner : Option (Reader Value)} {s r : List UInt8} {v : Value}
    (h : valueRun inner s = .ok (v, r)) : r.length ≤ s.length := by
  have key {cs : List Char} {u : List UInt8} {v' : Value}
      (h' : (literal cs u).map (fun t => (v', t)) = .ok (v, r)) : r.length ≤ u.length := by
    cases hl : literal cs u with
    | error e => simp [hl, Except.map] at h'
    | ok t =>
      simp only [hl, Except.map, Except.ok.injEq, Prod.mk.injEq] at h'
      exact h'.2 ▸ literal_length_le hl
  unfold valueRun at h
  split at h
  · cases h
  · rename_i b t hs
    have hle := length_skipSpace_le s
    rw [hs, List.length_cons] at hle
    suffices hr : r.length ≤ t.length + 1 by omega
    split at h
    · exact Nat.le_succ_of_le (key h)
    split at h
    · exact Nat.le_succ_of_le (key h)
    split at h
    · exact Nat.le_succ_of_le (key h)
    split at h
    · exact Nat.le_succ_of_le (length_le_of_map number_length_le h)
    split at h
    · exact length_le_of_map (n := (b :: t).length) number_length_le h
    split at h
    · exact Nat.le_succ_of_le (length_le_of_map string_length_le h)
    split at h
    · split at h
      · cases h
      · exact Nat.le_succ_of_le (length_le_of_map items_length_le h)
    split at h
    · split at h
      · cases h
      · exact Nat.le_succ_of_le (length_le_of_map members_length_le h)
    · cases h

/-- Reads a value with at most `depth` arrays and objects inside each other. -/
def value : Nat → Reader Value
  | 0 => ⟨valueRun none, valueRun_length_le⟩
  | depth + 1 => ⟨valueRun (some (value depth)), valueRun_length_le⟩

/-- How many arrays and objects may stand inside each other in a text. -/
def maxDepth : Nat := 127

def Value.read (s : List UInt8) : Except ReadError Value := (value maxDepth).readAll s

end Gelf.Json
