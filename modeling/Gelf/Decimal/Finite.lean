/-!
# Finite floats

A float that is neither infinite nor NaN. These are the floats that have a decimal text which every
reader of numbers accepts.
-/

namespace Gelf

structure FiniteFloat where
  val : Float
  isFinite : val.isFinite = true
  deriving DecidableEq

namespace FiniteFloat

def ofFloat? (x : Float) : Option FiniteFloat :=
  if h : x.isFinite = true then some ⟨x, h⟩ else none

@[simp]
theorem ofFloat?_val (x : FiniteFloat) : ofFloat? x.val = some x := by
  simp [ofFloat?, x.isFinite]

theorem val_of_ofFloat? {x : Float} {y : FiniteFloat} (h : ofFloat? x = some y) : y.val = x := by
  unfold ofFloat? at h
  split at h
  · cases h; rfl
  · cases h

end FiniteFloat

end Gelf
