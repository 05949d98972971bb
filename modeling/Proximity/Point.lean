import Proximity.Scalar

/-!
# Points

A point is a vector of coordinates. Sums run over the coordinates from first to last, starting at
zero; `sumOver` is that fold for any family of terms.
-/

namespace Proximity

/-- A point with `d` coordinates. -/
abbrev Point (α : Type) (d : Nat) := Vector α d

variable {α : Type} [Add α] [Sub α] [Mul α] [Div α] [Scalar α]

/-- The sum `f 0 + … + f (n - 1)`, added from left to right. -/
def sumOver (n : Nat) (f : Fin n → α) : α :=
  Fin.foldl n (fun acc i => acc + f i) Scalar.zero

namespace Point

variable {d : Nat}

/-- The origin. -/
def origin : Point α d := Vector.replicate d Scalar.zero

/-- The inner product of two points. -/
def dot (x y : Point α d) : α := sumOver d fun j => x.get j * y.get j

/-- The inner product of a point with itself. -/
def squaredNorm (x : Point α d) : α := dot x x

/-- Coordinatewise sum. -/
def add (x y : Point α d) : Point α d := Vector.zipWith (· + ·) x y

/-- Coordinatewise difference. -/
def sub (x y : Point α d) : Point α d := Vector.zipWith (· - ·) x y

/-- All coordinates divided by one number. -/
def divideBy (x : Point α d) (c : α) : Point α d := x.map (· / c)

omit [Add α] [Sub α] [Mul α] [Div α] in
@[simp] theorem origin_getElem (j : Nat) (h : j < d) :
    (origin : Point α d)[j] = Scalar.zero := by simp [origin]

omit [Sub α] [Mul α] [Div α] [Scalar α] in
@[simp] theorem add_getElem (x y : Point α d) (j : Nat) (h : j < d) :
    (add x y)[j] = x[j] + y[j] := by simp [add]

omit [Add α] [Mul α] [Div α] [Scalar α] in
@[simp] theorem sub_getElem (x y : Point α d) (j : Nat) (h : j < d) :
    (sub x y)[j] = x[j] - y[j] := by simp [sub]

omit [Add α] [Sub α] [Mul α] [Scalar α] in
@[simp] theorem divideBy_getElem (x : Point α d) (c : α) (j : Nat) (h : j < d) :
    (divideBy x c)[j] = x[j] / c := by simp [divideBy]

end Point

end Proximity
