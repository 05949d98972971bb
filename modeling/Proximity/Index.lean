/-!
# Indices

A vector is read and written at indices below its length: `Vector.get` reads an entry and
`Vector.put` replaces one. A positive size has a first index, and every number has a remainder that
is an index.
-/

namespace Proximity

/-- The size `n` is positive. -/
class Positive (n : Nat) : Prop where
  pos : 0 < n

namespace Positive

instance (n : Nat) : Positive (n + 1) := ⟨Nat.succ_pos n⟩

instance (n : Nat) : Decidable (Positive n) := decidable_of_iff (0 < n) ⟨Positive.mk, (·.pos)⟩

/-- The first index. -/
def first (n : Nat) [h : Positive n] : Fin n := ⟨0, h.pos⟩

/-- The remainder of a number as an index. -/
def remainder (n : Nat) [h : Positive n] (x : Nat) : Fin n := ⟨x % n, Nat.mod_lt x h.pos⟩

theorem remainder_val {n : Nat} [Positive n] {x : Nat} (h : x < n) :
    (remainder n x).val = x := Nat.mod_eq_of_lt h

end Positive

end Proximity

namespace Vector

variable {β : Type} {n : Nat}

/-- The vector with entry `i` replaced. -/
def put (x : Vector β n) (i : Fin n) (v : β) : Vector β n := x.set i v i.isLt

@[simp] theorem get_put_self (x : Vector β n) (i : Fin n) (v : β) : (x.put i v).get i = v := by
  show (x.set i v i.isLt)[i.val] = v
  simp

theorem get_put_of_ne (x : Vector β n) {i j : Fin n} (v : β) (h : i ≠ j) :
    (x.put i v).get j = x.get j := by
  show (x.set i v i.isLt)[j.val] = x[j.val]
  exact Vector.getElem_set_ne _ _ fun e => h (Fin.ext e)

theorem get_put (x : Vector β n) (i j : Fin n) (v : β) :
    (x.put i v).get j = if i = j then v else x.get j := by
  split
  next h => rw [h, get_put_self]
  next h => exact get_put_of_ne x v h

@[simp] theorem get_zipWith {γ δ : Type} (f : β → γ → δ) (x : Vector β n) (y : Vector γ n)
    (i : Fin n) : (Vector.zipWith f x y).get i = f (x.get i) (y.get i) := by
  show (Vector.zipWith f x y)[i.val] = f x[i.val] y[i.val]
  simp

/-- Vectors with the same entries are equal. -/
theorem ext_get {x y : Vector β n} (h : ∀ i, x.get i = y.get i) : x = y :=
  Vector.ext fun i hi => h ⟨i, hi⟩

end Vector
