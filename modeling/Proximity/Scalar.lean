import Proximity.Decimal

/-!
# Scalars

The numbers that coordinates, distances and bounds are made of. Every algorithm of the library is
written once for a type with field operations, an order, an equality test and a `Scalar` instance;
no law is assumed, so that the same definition can be run on rounded numbers and reasoned about on
exact ones. Comparisons with a value that is not a number are false.
-/

namespace Proximity

/-- What a number type offers besides field operations, order and equality test. -/
class Scalar (α : Type) where
  /-- Size of a stored number in bytes. -/
  bytes : Nat
  ofNat : Nat → α
  ofFloat : Float → α
  toFloat : α → Float
  sqrt : α → α
  abs : α → α
  pow : α → α → α
  /-- The larger number; the other one when one is not a number. -/
  max : α → α → α
  /-- The smaller number; the other one when one is not a number. -/
  min : α → α → α
  /-- The number is below positive infinity. -/
  bounded : α → Bool
  /-- The largest finite number. -/
  largest : α
  /-- The shortest decimal that reads back as the number. -/
  decimal : α → Decimal

namespace Scalar

variable {α : Type} [Scalar α]

/-- Zero as a scalar. -/
abbrev zero : α := ofNat 0

/-- One as a scalar. -/
abbrev one : α := ofNat 1

/-- Two as a scalar. -/
abbrev two : α := ofNat 2

/-- One half. -/
abbrev half [Div α] : α := one / two

/-- The least finite number. -/
abbrev smallest [Neg α] : α := -largest

/-- One divided by a number. -/
abbrev recip [Div α] (x : α) : α := one / x

end Scalar

/-- Eight-byte numbers. -/
instance : Scalar Float where
  bytes := 8
  ofNat := Float.ofNat
  ofFloat x := x
  toFloat x := x
  sqrt := Float.sqrt
  abs := Float.abs
  pow := Float.pow
  max x y := if x.isNaN then y else if y.isNaN then x else if x < y then y else x
  min x y := if x.isNaN then y else if y.isNaN then x else if y < x then y else x
  bounded x := x < 1.0 / 0.0
  largest := Float.ofBits 0x7FEFFFFFFFFFFFFF
  decimal x := Decimal.ofBits .double x.toBits.toNat

/-- Four-byte numbers. -/
instance : Scalar Float32 where
  bytes := 4
  ofNat := Float32.ofNat
  ofFloat := Float.toFloat32
  toFloat := Float32.toFloat
  sqrt := Float32.sqrt
  abs := Float32.abs
  pow := Float32.pow
  max x y := if x.isNaN then y else if y.isNaN then x else if x < y then y else x
  min x y := if x.isNaN then y else if y.isNaN then x else if y < x then y else x
  bounded x := x < 1.0 / 0.0
  largest := Float32.ofBits 0x7F7FFFFF
  decimal x := Decimal.ofBits .single x.toBits.toNat

end Proximity
