/-!
# Scopes

The named spans that are entered and not yet left.
-/

namespace Gelf.Trace

inductive Parent
  | current
  | root
  /-- In the span of an index. The outermost one has index 0. -/
  | span (index : Nat)
  deriving DecidableEq, Repr

/-- The spans that are entered, the innermost one first. -/
structure Scope where
  spans : List String := []
  deriving DecidableEq, Repr

namespace Scope

def enter (scope : Scope) (name : String) : Scope := ⟨name :: scope.spans⟩

def exit (scope : Scope) : Scope := ⟨scope.spans.tail⟩

def span? (scope : Scope) : Parent → Option String
  | .current => scope.spans.head?
  | .root => none
  | .span index => scope.spans.reverse[index]?

end Scope

end Gelf.Trace
