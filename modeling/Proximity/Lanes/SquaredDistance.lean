import Proximity.Lanes.Width
import Proximity.Matrix.Strided

/-!
# Squared distances by lanes

The sum of squared differences of two strided vectors. `L` lanes add up the terms of whole chunks,
the remaining terms are added on their own, and the lanes' sums are added to those.
-/

namespace Proximity.Lanes

variable {α : Type} [Add α] [Sub α] [Mul α] [Scalar α] {m : Nat}

/-- The squared difference of two numbers. -/
def squaredDifference (x y : α) : α := (x - y) * (x - y)

/-- Lane `l` of whole chunk `c` is one of the terms. -/
theorem wholeChunk_lt {L m : Nat} (c : Fin (m / L)) (l : Fin L) : c.val * L + l.val < m :=
  calc c.val * L + l.val < c.val * L + L := Nat.add_lt_add_left l.isLt _
    _ = (c.val + 1) * L := (Nat.succ_mul _ _).symm
    _ ≤ m / L * L := Nat.mul_le_mul_right _ c.isLt
    _ ≤ m := Nat.div_mul_le_self m L

/-- A term after the whole chunks is one of the terms. -/
theorem remainder_lt {L m : Nat} (r : Fin (m % L)) : m - m % L + r.val < m := by
  have := r.isLt
  have := Nat.mod_le m L
  omega

/-- The sum of the terms in lane `l`. -/
def laneSum (L : Nat) (term : Fin m → α) (l : Fin L) : α :=
  sumOver (m / L) fun c => term ⟨c.val * L + l.val, wholeChunk_lt c l⟩

/-- The sum of the terms after the whole chunks. -/
def remainderSum (L : Nat) (term : Fin m → α) : α :=
  sumOver (m % L) fun r => term ⟨m - m % L + r.val, remainder_lt r⟩

/-- The sum of all terms, by lanes. -/
def sumByLanes (L : Nat) (term : Fin m → α) : α :=
  Fin.foldl L (fun acc l => acc + laneSum L term l) (remainderSum L term)

/-- The squared Euclidean distance of two strided vectors, computed in `L` lanes. -/
def squaredDistance (L : Nat) (x y : Strided α m) : α :=
  sumByLanes L fun k => squaredDifference (x.get k) (y.get k)

end Proximity.Lanes
