import Proximity.Point

/-!
# Strided vectors

`m` numbers of a buffer, `stride` slots apart: a row or column of a matrix read where it lies. The
bound that keeps every read inside the buffer is part of the type.
-/

namespace Proximity

/-- The slots `offset`, `offset + stride`, … of a buffer, `m` of them. -/
structure Strided (α : Type) (m : Nat) where
  buffer : Array α
  offset : Nat
  stride : Nat
  inBounds : ∀ k, k < m → offset + k * stride < buffer.size

namespace Strided

variable {α : Type} {m : Nat}

/-- Number `k`. -/
def get (v : Strided α m) (k : Fin m) : α :=
  have := v.inBounds k k.isLt
  v.buffer[v.offset + k.val * v.stride]

/-- A vector as a strided vector. -/
def ofVector (x : Vector α m) : Strided α m where
  buffer := x.toArray
  offset := 0
  stride := 1
  inBounds k hk := by simpa using hk

/-- `m` numbers of a buffer from a given slot on, if they lie in it. -/
def within? (buffer : Array α) (offset stride m : Nat) : Option (Strided α m) :=
  if h : m = 0 ∨ offset + (m - 1) * stride < buffer.size then
    some {
      buffer, offset, stride
      inBounds k hk := by
        have : k * stride ≤ (m - 1) * stride := Nat.mul_le_mul_right _ (by omega)
        omega }
  else none

/-- The first `m` numbers of a buffer with the given stride, if they lie in it. -/
def ofBuffer? (buffer : Array α) (stride m : Nat) : Option (Strided α m) :=
  within? buffer 0 stride m

/-- The numbers as a point. -/
def toPoint (v : Strided α m) : Point α m := Vector.ofFn v.get

@[simp] theorem get_ofVector (x : Vector α m) (k : Fin m) : (ofVector x).get k = x.get k := by
  have : (ofVector x).get k = x[k.val] := by simp [get, ofVector]
  exact this

@[simp] theorem toPoint_getElem (v : Strided α m) (k : Nat) (h : k < m) :
    v.toPoint[k] = v.get ⟨k, h⟩ := by simp [toPoint]

end Strided

end Proximity
