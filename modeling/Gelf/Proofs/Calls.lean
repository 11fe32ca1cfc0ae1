import Gelf.FieldMap

/-!
# Calls

A value is changed by calls, one after another. Of one part of the value, each call says what it
becomes, or it says nothing and leaves the part. Then the last call that says anything decides.
-/

namespace Gelf

variable {σ γ α β : Type}

/-- **The last call decides.** -/
theorem part_foldl (part : σ → Option β) {step : σ → γ → σ} {effect : γ → Option β}
    (h : ∀ s c, part (step s c) = (effect c).or (part s)) (calls : List γ) (s : σ) :
    part (calls.foldl step s) = (calls.filterMap effect).getLast?.or (part s) := by
  induction calls generalizing s with
  | nil => rfl
  | cons c calls ih =>
    rw [List.foldl_cons, ih, h, ← Option.or_assoc]
    cases hc : effect c with
    | none => rw [List.filterMap_cons_none hc, Option.or_none]
    | some b => rw [List.filterMap_cons_some hc, List.getLast?_cons, Option.or_some]

/-! ### Fields -/

/-- What a field says about a name. -/
def valueAt? (name : String) (field : String × α) : Option α :=
  if name = field.1 then some field.2 else none

/-- The two lists have the same names, and the last value of each name is the same. -/
def SameLast (fields others : List (String × α)) : Prop :=
  ∀ name, (fields.filterMap (valueAt? name)).getLast? = (others.filterMap (valueAt? name)).getLast?

theorem FieldMap.get?_insert_eq_or (m : FieldMap α) (name : String) (field : String × α) :
    (m.insert field.1 field.2).get? name = (valueAt? name field).or (m.get? name) := by
  rw [get?_insert, valueAt?]
  split <;> rfl

theorem FieldMap.get?_ofList_eq_getLast? (fields : List (String × α)) (name : String) :
    (ofList fields).get? name = (fields.filterMap (valueAt? name)).getLast? := by
  have hlast := part_foldl (fun m : FieldMap α => m.get? name)
    (fun m field => m.get?_insert_eq_or name field) fields empty
  rwa [get?_empty, Option.or_none] at hlast

theorem SameLast.ofList_eq {fields others : List (String × α)} (h : SameLast fields others) :
    FieldMap.ofList fields = FieldMap.ofList others := by
  ext1 name
  rw [FieldMap.get?_ofList_eq_getLast?, FieldMap.get?_ofList_eq_getLast?, h name]

end Gelf
