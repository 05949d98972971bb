import Proximity.Clustering.State
import Proximity.Index
import Proximity.Lanes.Nearest
import Proximity.Metric.Table
import Proximity.RowBlocks

/-!
# Assigning samples to centres

Every row gets the label of its nearest centre. The norm of the row is the same for all centres, so
the sums of cross term and centre norm decide. Rows are processed in blocks; a task goes through some
blocks with one work matrix, which it does not clear in between, and tasks are merged at the end.

1. `paddedNorms`: the norms of the centres, infinite in the columns that stand for none.
2. `Assignment.step`: one block of a task.
3. `Assignment.ofTasks`: all tasks, and `Assignment.inBlocks`, which puts all blocks into one.
-/

namespace Proximity

variable {α : Type} [Add α] [Mul α] [Neg α] [LT α] [DecidableLT α] [BEq α] [Scalar α]
  {n K d ld L : Nat}

omit [Neg α] [LT α] [DecidableLT α] [BEq α] in
/-- The squared norms of the centres in rows of `ld` columns. -/
def paddedNorms (centres : Matrix α K d) (ld : Nat) : Vector (Extended α) ld :=
  Vector.ofFn fun j => if h : j.val < K then some (centres.get ⟨j.val, h⟩).squaredNorm else none

/-- A labelling, and the totals of its clusters if they were asked for. -/
structure Assignment (α : Type) (n K d : Nat) where
  labels : Vector (Fin K) n
  totals : Option (Totals α K d)

namespace RowBlocks

theorem length_le_size (B : RowBlocks) (b : Nat) : B.length b ≤ B.size := by
  simp only [length, stop]; omega

/-- The rows of block `b`. -/
def slice (B : RowBlocks) (M : Matrix α B.rows d) (b : Nat) : Matrix α (B.length b) d :=
  Vector.ofFn fun r => M.get (B.rowOf b r)

/-- All blocks in one task. -/
def oneTask (B : RowBlocks) : List (List Nat) := [List.range B.count]

end RowBlocks

namespace Assignment

/-- The assignment after block `b`, and the work matrix that the block leaves behind. -/
def step (B : RowBlocks) [Clustered B.rows K] (data : Matrix α B.rows d) (centres : Matrix α K d)
    (norms : Vector (Extended α) ld) (h : Lanes.covered L K ≤ ld)
    (acc : Assignment α B.rows K d × Matrix α B.size ld) (b : Nat) :
    Assignment α B.rows K d × Matrix α B.size ld :=
  let work := writeCross (B.slice data b) centres acc.2
  let label (r : Fin (B.length b)) : Fin K :=
    have : Positive K := Clustered.positive (B.rowOf b r)
    Positive.remainder K (Lanes.nearest (L := L)
      (work.get (r.castLE (B.length_le_size b))) norms h)
  (Fin.foldl (B.length b) (fun a r =>
    let l := label r
    { labels := a.labels.put (B.rowOf b r) l
      totals := a.totals.map (·.insert l (data.get (B.rowOf b r))) }) acc.1, work)

/-- The assignment after all blocks of a task, which starts with a blank work matrix. -/
def task (B : RowBlocks) [Clustered B.rows K] (data : Matrix α B.rows d) (centres : Matrix α K d)
    (norms : Vector (Extended α) ld) (h : Lanes.covered L K ≤ ld) (accumulate : Bool)
    (labels : Vector (Fin K) B.rows) (blocks : List Nat) : Assignment α B.rows K d :=
  (blocks.foldl (step B data centres norms h)
    (⟨labels, if accumulate then some Totals.zero else none⟩,
      Matrix.const B.size ld Scalar.zero)).1

/-- The assignment of all rows by a sequence of tasks, whose totals are merged. -/
def ofTasks (B : RowBlocks) [Clustered B.rows K] (data : Matrix α B.rows d) (centres : Matrix α K d)
    (norms : Vector (Extended α) ld) (h : Lanes.covered L K ≤ ld) (accumulate : Bool)
    (labels : Vector (Fin K) B.rows) (tasks : List (List Nat)) : Assignment α B.rows K d :=
  tasks.foldl (fun acc blocks =>
    let part := task B data centres norms h accumulate acc.labels blocks
    { labels := part.labels
      totals := acc.totals.bind fun t => part.totals.map t.merge })
    ⟨labels, if accumulate then some Totals.zero else none⟩

/-- The assignment of all rows in blocks of at most `size`, by a kernel of the given width. -/
def inBlocks [Clustered n K] (w : Lanes.Width) (size : Nat) (data : Matrix α n d)
    (centres : Matrix α K d) (accumulate : Bool) (labels : Vector (Fin K) n) : Assignment α n K d :=
  let B := RowBlocks.ofRows n size
  have : Clustered B.rows K := inferInstanceAs (Clustered n K)
  let bytes := Scalar.bytes α
  ofTasks B data centres (paddedNorms centres (K + w.padding bytes))
    (Lanes.covered_le bytes K w) accumulate labels B.oneTask

end Assignment

end Proximity
