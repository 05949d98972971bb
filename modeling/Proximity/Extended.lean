import Proximity.Scalar

/-!
# Values up to infinity

A scalar, or nothing in the place of positive infinity: the norm of a column that stands for no
cluster, the least value of an empty search, the distance to a neighbour that does not exist. A
comparison that involves such a value is decided by `Scalar.bounded`, so that a scalar type needs
no infinity of its own.
-/

namespace Proximity

/-- A scalar, or `none` for positive infinity. -/
abbrev Extended (α : Type) := Option α

namespace Extended

variable {α : Type} [LT α] [DecidableLT α] [BEq α] [Scalar α]

/-- Whether `x < y`; nothing is above infinity, and below it is what is bounded. -/
def lt : Extended α → Extended α → Bool
  | some x, some y => x < y
  | some x, none => Scalar.bounded x
  | none, _ => false

/-- The two values compare as equal. -/
def same : Extended α → Extended α → Bool
  | some x, some y => x == y
  | none, none => true
  | _, _ => false

/-- The smaller of a value and a scalar. -/
def meet : Extended α → α → Extended α
  | some x, y => some (Scalar.min x y)
  | none, y => if Scalar.bounded y then some y else none

omit [BEq α] in
@[simp] theorem lt_none_left (y : Extended α) : lt none y = false := by cases y <;> rfl

omit [BEq α] in
@[simp] theorem lt_some_none (x : α) : lt (some x) none = Scalar.bounded x := rfl

omit [BEq α] in
@[simp] theorem lt_some_some (x y : α) : lt (some x) (some y) = decide (x < y) := rfl

end Extended

end Proximity
