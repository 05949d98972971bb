import Proximity.Extended
import Proximity.Index
import Proximity.Lanes.Width
import Proximity.Memory

/-!
# The nearest column

The assignment kernel. A row holds one value per column and every column has a norm, infinite in
the columns that stand for no cluster. Each of `L` lanes finds the first least sum of value and norm
among its columns; the lanes are merged by sum, and by column where sums are equal. A row without a
sum below infinity gets column zero.
-/

namespace Proximity.Lanes

variable {α : Type} [Add α] [LT α] [DecidableLT α] [BEq α] [Scalar α] {L K ld : Nat}

/-- The least sum found so far and its column. -/
structure Best (α : Type) where
  value : Extended α
  column : Nat

namespace Best

/-- Nothing found yet. -/
def empty : Best α := ⟨none, 0⟩

/-- The candidate, if its sum is smaller. -/
def improve (b : Best α) (value : Extended α) (column : Nat) : Best α :=
  if value.lt b.value then ⟨value, column⟩ else b

/-- The better of two: the smaller sum, the lower column where sums are equal. -/
def merge (a b : Best α) : Best α :=
  if b.value.lt a.value || (b.value.same a.value && b.column < a.column) then b else a

end Best

/-- The sum of a column's value and norm. -/
def columnSum (row : Vector α ld) (norms : Vector (Extended α) ld) (j : Fin ld) : Extended α :=
  (norms.get j).map (row.get j + ·)

/-- The best of the columns of lane `l`. -/
def laneBest (row : Vector α ld) (norms : Vector (Extended α) ld) (h : covered L K ≤ ld)
    (l : Fin L) : Best α :=
  Fin.foldl (chunks L K) (fun best c =>
    best.improve (columnSum row norms ⟨c.val * L + l.val, column_lt h c l⟩) (c.val * L + l.val))
    Best.empty

/-- The column with the least sum of value and norm. -/
def nearest (row : Vector α ld) (norms : Vector (Extended α) ld) (h : covered L K ≤ ld) : Nat :=
  (Fin.foldl L (fun best l => Best.merge best (laneBest row norms h l)) Best.empty).column

/-! ## All rows -/

/-- The column of every row of a work matrix. -/
def labelRows {r : Nat} (work : Vector (Vector α ld) r) (norms : Vector (Extended α) ld)
    (h : covered L K ≤ ld) : Vector Nat r := work.map (nearest · norms h)

/-- One more row for column `j`, if that column is counted. Counts are 64-bit words. -/
def countRow (counts : Array Nat) (j : Nat) : Option (Array Nat) :=
  if h : j < counts.size then some (counts.set j (Memory.wrap (counts[j] + 1))) else none

/-- Counts raised by the rows that each column got, if all these columns are counted. -/
def countRows {r : Nat} (counts : Array Nat) (labels : Vector Nat r) : Option (Array Nat) :=
  labels.toList.foldlM countRow counts

end Proximity.Lanes
