import Proximity.Matrix.Storage
import Proximity.Matrix.Strided

/-!
# Samples

The data of a clustering: `n` samples with `d` features, stored feature after feature, so that feature
`j` of sample `i` lies in slot `i + j * n`. A sample is a strided vector of that storage.
-/

namespace Proximity

/-- A number `n` of samples with `d` features, in column-major storage. -/
structure Samples (α : Type) (n d : Nat) where
  columns : Vector α (n * d)

namespace Samples

variable {α : Type} {n d : Nat}

theorem slot_lt {m i j : Nat} (hm : m ≤ d) (hi : i < n) (hj : j < m) : i + j * n < n * d :=
  calc i + j * n < n + j * n := Nat.add_lt_add_right hi _
    _ = (j + 1) * n := by rw [Nat.succ_mul, Nat.add_comm]
    _ ≤ d * n := Nat.mul_le_mul_right _ (by omega)
    _ = n * d := Nat.mul_comm _ _

/-- The samples in the rows of a grid, if their storage can be read column by column. -/
def ofGrid (g : Grid α) : Checked (Samples α g.rows g.cols) :=
  (Stored.ofGrid .columnMajor g).columnSlice.map Samples.mk

/-- The first `m` features of sample `i`. -/
def leading (s : Samples α n d) (i : Fin n) (m : Nat) (hm : m ≤ d) : Strided α m where
  buffer := s.columns.toArray
  offset := i
  stride := n
  inBounds k hk := by simpa using slot_lt hm i.isLt hk

/-- Sample `i`. -/
def sample (s : Samples α n d) (i : Fin n) : Strided α d := s.leading i d (Nat.le_refl d)

/-- Sample `i` as a point. -/
def point (s : Samples α n d) (i : Fin n) : Point α d := (s.sample i).toPoint

/-- The samples as the rows of a matrix. -/
def rows (s : Samples α n d) : Matrix α n d := Vector.ofFn s.point

@[simp] theorem rows_getElem (s : Samples α n d) (i : Nat) (h : i < n) :
    s.rows[i] = s.point ⟨i, h⟩ := by simp [rows]

section Distance

variable [Add α] [Sub α] [Mul α] [Scalar α]

/-- The squared distance between the leading features of sample `i` and a vector. -/
def squaredDistanceTo {m : Nat} (s : Samples α n d) (i : Fin n) (x : Vector α m) (hm : m ≤ d) : α :=
  sumOver m fun j => ((s.leading i m hm).get j - x.get j) * ((s.leading i m hm).get j - x.get j)

/-- The squared distance between a vector and the slots that lie a column apart from slot `i` on, if
there are so many of them. For a slot of the first column this is a sample. -/
def squaredDistanceFrom? {m : Nat} (s : Samples α n d) (i : Nat) (x : Vector α m) : Option α :=
  (Strided.within? s.columns.toArray i n m).map fun v =>
    sumOver m fun j => (v.get j - x.get j) * (v.get j - x.get j)

end Distance

/-- The storage from slot `i` on, if it reaches that far. -/
def slotsFrom? (s : Samples α n d) (i : Nat) : Option (Array α) :=
  if i ≤ n * d then some (s.columns.toArray.extract i (n * d)) else none

end Samples

end Proximity
