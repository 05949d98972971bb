import Proximity.Lanes.Width

/-!
# Moving bounds

The bound update kernel. When centre `j` has moved by `shift[j]`, a lower bound of the distance to it
falls by that much, but not below zero, and an upper bound of the distance to it grows by as much.
-/

namespace Proximity.Lanes

variable {α : Type} [Add α] [Sub α] [Scalar α] {L K ld : Nat}

/-- Lower bounds of one sample after the centres moved; columns past the chunks stay. -/
def lowerAfter (L K : Nat) (lower shift : Vector α ld) : Vector α ld :=
  Vector.ofFn fun j =>
    if j.val < covered L K then Scalar.max (lower.get j - shift.get j) Scalar.zero else lower.get j

/-- Upper bound of one sample after its centre moved. -/
def upperAfter (upper : α) (shift : Vector α ld) (label : Fin ld) : α := upper + shift.get label

/-- Bounds of some samples, as many as have both an upper bound and a label, after the centres moved.
Each of them needs a row of lower bounds and a label in the chunks. Other bounds stay. -/
def boundsAfter (L K : Nat) (lower : Array (Vector α ld)) (upper : Array α) (shift : Vector α ld)
    (labels : Array Nat) : Option (Array (Vector α ld) × Array α) :=
  let moved := min upper.size labels.size
  let column (i : Nat) : Option (Fin ld) := do
    let l ← labels[i]?
    if h : l < ld then if l < covered L K then some ⟨l, h⟩ else none else none
  if lower.size < moved then none
  else do
    let upper ← upper.toList.zipIdx.mapM fun (u, i) =>
      if i < moved then (column i).map (upperAfter u shift) else some u
    return (lower.mapIdx fun i row => if i < moved then lowerAfter L K row shift else row,
      upper.toArray)

end Proximity.Lanes
