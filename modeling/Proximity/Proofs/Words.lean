import Mathlib.Data.Nat.Notation
import Proximity.Memory

/-!
# Sizes in words

A machine computes sizes in words of 64 bits. Where a result is no word, a machine that checks its
arithmetic stops, and one that does not goes on with the low 64 bits of it. A computation written for any
`SizeArithmetic` is one for both, and as long as all results are words the two agree.
-/

namespace Proximity

/-- Sums, differences and products of words as a machine computes them, or nothing where it stops. A
result that is a word is exact. -/
structure SizeArithmetic where
  add : ℕ → ℕ → Option ℕ
  sub : ℕ → ℕ → Option ℕ
  mul : ℕ → ℕ → Option ℕ
  add_exact : ∀ {a b : ℕ}, a + b < UInt64.size → add a b = some (a + b)
  sub_exact : ∀ {a b : ℕ}, b ≤ a → sub a b = some (a - b)
  mul_exact : ∀ {a b : ℕ}, a * b < UInt64.size → mul a b = some (a * b)

namespace SizeArithmetic

/-- The machine stops where a result is no word. -/
def checked : SizeArithmetic where
  add a b := if a + b < UInt64.size then some (a + b) else none
  sub a b := if b ≤ a then some (a - b) else none
  mul a b := if a * b < UInt64.size then some (a * b) else none
  add_exact h := if_pos h
  sub_exact h := if_pos h
  mul_exact h := if_pos h

/-- The machine keeps the low 64 bits of a result. -/
def wrapping : SizeArithmetic where
  add a b := some (Memory.wrap (a + b))
  sub a b := some (if b ≤ a then a - b else UInt64.size + a - b)
  mul a b := some (Memory.wrap (a * b))
  add_exact h := congrArg some (Memory.wrap_of_lt h)
  sub_exact h := congrArg some (if_pos h)
  mul_exact h := congrArg some (Memory.wrap_of_lt h)

theorem checked_mul_eq_none {a b : ℕ} (h : UInt64.size ≤ a * b) : checked.mul a b = none :=
  if_neg (Nat.not_lt.2 h)

/-- A sum does not depend on whether a summand has lost its high bits before. -/
theorem wrapping_add_wrap (a b : ℕ) : wrapping.add (Memory.wrap a) b = some (Memory.wrap (a + b)) :=
  congrArg some (Nat.mod_add_mod a UInt64.size b)

end SizeArithmetic

end Proximity
