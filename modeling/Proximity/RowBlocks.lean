import Proximity.Memory

/-!
# Blocks of rows

Rows are processed in blocks of equal length; only the last block may be shorter. `RowBlocks.ofRows`
lays out the blocks of `n` rows, `partition` states the same layout as a number of blocks and a
remainder, and `workers` and `blocksPerTask` say how the blocks are shared out. `range` gives the
bounds of a block for any number of rows, in 64-bit words; they are `start` and `stop` where these
are words, as they are for all rows that there is storage for. `partition_total` says how the rows are
spread over the blocks.
-/

namespace Proximity

/-- A layout of `rows` rows in `count` blocks of `size` rows. -/
structure RowBlocks where
  rows : Nat
  size : Nat
  count : Nat
  deriving Repr, DecidableEq

namespace RowBlocks

/-- Number of blocks of at most `size` rows, and the length of the last one, zero when it is full.
There is always at least one block. -/
def partition (n size : Nat) : Nat × Nat :=
  let size := max size 1
  if n ≤ size then (1, if n < size then n else 0)
  else ((n + size - 1) / size, n % size)

/-- The layout of `n` rows in blocks of at most `size` rows. -/
def ofRows (n size : Nat) : RowBlocks :=
  let size := max (min size n) 1
  ⟨n, size, (partition n size).1⟩

/-- The first row of block `b`. -/
def start (B : RowBlocks) (b : Nat) : Nat := b * B.size

/-- The row after the last one of block `b`. -/
def stop (B : RowBlocks) (b : Nat) : Nat := min (B.start b + B.size) B.rows

/-- The first row of block `b` and the row after its last one, in 64-bit words. Where the sum of start
and size is no word the block ends before it starts. -/
def range (B : RowBlocks) (b : Nat) : Nat × Nat :=
  (B.start b, min (Memory.wrap (B.start b + B.size)) B.rows)

theorem range_eq {B : RowBlocks} {b : Nat} (h : B.start b + B.size < UInt64.size) :
    B.range b = (B.start b, B.stop b) := by
  rw [range, Memory.wrap_of_lt h, stop]

/-- Rows of block `b`. -/
def length (B : RowBlocks) (b : Nat) : Nat := B.stop b - B.start b

/-- Workers of a pool of `pool` that get blocks; never more than there are blocks. -/
def workers (B : RowBlocks) (pool : Nat) : Nat := max (min pool B.count) 1

/-- The least number of blocks in a task. A single worker gets all blocks in one task. -/
def blocksPerTask (B : RowBlocks) (pool : Nat) : Nat :=
  if 1 < B.workers pool then 1 else max B.count 1

/-! ## Number and length of the blocks -/

/-- One more than the quotient, unless nothing remains. -/
theorem quotient_up (n : Nat) {size : Nat} (h : 0 < size) :
    (n + size - 1) / size = n / size + if 0 < n % size then 1 else 0 := by
  have hdiv := Nat.div_add_mod' n size
  have hmod := Nat.mod_lt n h
  have hnext (q : Nat) : (q + 1) * size = q * size + size := Nat.succ_mul q size
  split
  next hrest =>
    refine Nat.div_eq_of_lt_le ?_ ?_
    · rw [hnext]; omega
    · rw [hnext, hnext]; omega
  next hrest =>
    refine Nat.div_eq_of_lt_le ?_ ?_
    · rw [Nat.add_zero]; omega
    · rw [Nat.add_zero, hnext]; omega

theorem partition_snd_lt (n size : Nat) : (partition n size).2 < max size 1 := by
  have := Nat.mod_lt n (show 0 < max size 1 by omega)
  unfold partition
  simp only
  split
  · simp only; split <;> omega
  · assumption

/-- All blocks but the last are full. -/
theorem partition_total {n : Nat} (hn : 0 < n) (size : Nat) :
    n = ((partition n size).1 - 1) * max size 1 +
      if (partition n size).2 = 0 then max size 1 else (partition n size).2 := by
  unfold partition
  simp only
  generalize hs : max size 1 = s
  have hpos : 0 < s := by omega
  by_cases hle : n ≤ s
  · simp only [if_pos hle, Nat.sub_self, Nat.zero_mul, Nat.zero_add]
    split <;> split <;> omega
  · have hdiv := Nat.div_add_mod' n s
    have hquot : 0 < n / s := Nat.div_pos (by omega) hpos
    simp only [if_neg hle, quotient_up n hpos]
    by_cases hrest : n % s = 0
    · have hlast : (n / s - 1) * s + s = n / s * s := by
        rw [← Nat.succ_mul, Nat.succ_eq_add_one, Nat.sub_add_cancel hquot]
      simp only [hrest, Nat.lt_irrefl, if_false, if_true, Nat.add_zero]
      omega
    · simp only [if_neg hrest, if_pos (Nat.pos_of_ne_zero hrest), Nat.add_sub_cancel]
      omega

theorem partition_fst_pos (n size : Nat) : 0 < (partition n size).1 := by
  unfold partition
  simp only
  split
  next => exact Nat.one_pos
  next hmore => exact Nat.div_pos (by omega) (by omega)

/-- The last block has rows, and there are no rows after it. -/
theorem partition_bounds {n : Nat} (hn : 0 < n) (size : Nat) :
    ((partition n size).1 - 1) * max size 1 < n ∧ n ≤ (partition n size).1 * max size 1 := by
  have htotal := partition_total hn size
  have hrest := partition_snd_lt n size
  have hall : ((partition n size).1 - 1) * max size 1 + max size 1 =
      (partition n size).1 * max size 1 := by
    rw [← Nat.succ_mul, Nat.succ_eq_add_one, Nat.sub_add_cancel (partition_fst_pos n size)]
  split at htotal <;> omega

/-- A layout and a partition have the same number of blocks, although a block of a layout is never longer
than all rows together. -/
theorem partition_fst {n : Nat} (hn : 0 < n) (size : Nat) :
    (partition n size).1 = (ofRows n size).count := by
  unfold ofRows partition
  simp only
  by_cases hle : n ≤ max size 1
  · have hshort : n ≤ max (max (min size n) 1) 1 := by omega
    rw [if_pos hle, if_pos hshort]
  · rw [show max (max (min size n) 1) 1 = max size 1 by omega]

theorem size_pos (n size : Nat) : 0 < (ofRows n size).size := by
  simp only [ofRows]; omega

/-! ## Rows of a block -/

/-- A row of a block is a row of the layout. -/
theorem lt_rows {B : RowBlocks} {b i : Nat} (h : i < B.length b) : B.start b + i < B.rows := by
  simp only [length, stop] at h; omega

/-- Row `r` of block `b` as a row of the layout. -/
def rowOf (B : RowBlocks) (b : Nat) (r : Fin (B.length b)) : Fin B.rows :=
  ⟨B.start b + r, lt_rows r.isLt⟩

end RowBlocks

/-- Rows in a block of the batch assignments. -/
def assignmentBlock : Nat := 256

end Proximity
