import Gelf.FieldMap
import Gelf.Json.Number

/-!
# JSON values

The members of an object stand in increasing order of their names, and no name twice.
`Value.Ordered` says so at every depth.
-/

namespace Gelf.Json

inductive Value
  | null
  | bool (b : Bool)
  | number (n : Number)
  | string (s : String)
  | array (items : List Value)
  | object (members : List (String × Value))

namespace Value

instance : Inhabited Value := ⟨.null⟩

/-- An object with the members of a field map. -/
def ofFields (fields : FieldMap Value) : Value := .object fields.entries

def ofInteger (n : Integer) : Value := .number (.integer n)

mutual

/-- At every depth the members of an object are in increasing order. -/
def Ordered : Value → Prop
  | .array items => AllOrdered items
  | .object members => Increasing members ∧ MembersOrdered members
  | _ => True

def AllOrdered : List Value → Prop
  | [] => True
  | v :: vs => v.Ordered ∧ AllOrdered vs

def MembersOrdered : List (String × Value) → Prop
  | [] => True
  | (_, v) :: ms => v.Ordered ∧ MembersOrdered ms

end

mutual

/-- How many arrays and objects stand inside each other. -/
def depth : Value → Nat
  | .array items => 1 + itemsDepth items
  | .object members => 1 + membersDepth members
  | _ => 0

def itemsDepth : List Value → Nat
  | [] => 0
  | v :: vs => max v.depth (itemsDepth vs)

def membersDepth : List (String × Value) → Nat
  | [] => 0
  | (_, v) :: ms => max v.depth (membersDepth ms)

end

end Value

/-- The fields of an event or record: names with JSON values. -/
abbrev Fields := FieldMap Value

end Gelf.Json
