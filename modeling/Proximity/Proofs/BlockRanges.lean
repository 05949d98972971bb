import Proximity.Proofs.Assignment
import Proximity.Proofs.Words

/-!
# The ranges of the blocks

The blocks of a layout are consecutive ranges of rows, none of them empty, and they are what cutting a
list of all rows into chunks gives. For less than half as many rows as there are words all sizes on the
way are words. For more rows the end of the last block may be none: a machine that checks its arithmetic
stops, and on one that does not the block ends before it starts.

1. `toChunks_of_ne_nil` and `toChunks_eq`: a list in chunks.
2. `partitionBy`, `ofRowsBy` and `rangeBy`: layouts and ranges as a machine computes them;
   `rangeBy_checked`.
3. `RowBlocks.Filled`: every block has rows, and together they have all of them; `Filled.tiles` and
   `Filled.toChunks_eq`.
4. `RowBlocks.ranges_tile`.
-/

namespace Proximity

/-! ## Chunks of a list -/

section Chunks

variable {β : Type*} {size : ℕ} (hsize : 0 < size)

include hsize

/-- The items from a chunk that has been begun on are the rest of that chunk and the chunks of what is
after it. -/
theorem toChunks_go (xs : List β) (begun : Array β) (cut : Array (List β)) (hpos : 0 < begun.size)
    (hle : begun.size ≤ size) :
    List.toChunks.go size xs begun cut = cut.toList ++
      (begun.toList ++ xs).take size :: ((begun.toList ++ xs).drop size).toChunks size := by
  induction xs generalizing begun cut with
  | nil =>
    have hlen : begun.toList.length ≤ size := by rwa [Array.length_toList]
    rw [List.append_nil, List.take_of_length_le hlen, List.drop_eq_nil_of_le hlen]
    simp [List.toChunks.go, List.toChunks]
  | cons x xs ih =>
    rw [List.toChunks.go]
    split
    next hfull =>
      -- the list that is left starts a chunk of its own
      have hlen : begun.toList.length = size := by
        rw [Array.length_toList]
        exact beq_iff_eq.1 hfull
      have hfresh : (x :: xs).toChunks size = List.toChunks.go size xs #[x] #[] := by
        obtain ⟨m, rfl⟩ := Nat.exists_eq_succ_of_ne_zero hsize.ne'
        rfl
      have hone : (Array.mkEmpty size).push x = #[x] := rfl
      have hnext (cut : Array (List β)) := ih #[x] cut Nat.one_pos hsize
      rw [List.take_left' hlen, List.drop_left' hlen, hfresh, hone, hnext, hnext]
      simp
    next hroom =>
      have hlt : begun.size < size := lt_of_le_of_ne hle fun h => hroom (beq_iff_eq.2 h)
      rw [ih (begun.push x) cut (by simp) (by simpa using hlt), Array.toList_push,
        List.append_assoc, List.singleton_append]

/-- A chunk is as long as it can be. -/
theorem toChunks_of_ne_nil {xs : List β} (hxs : xs ≠ []) :
    xs.toChunks size = xs.take size :: (xs.drop size).toChunks size := by
  cases xs with
  | nil => exact absurd rfl hxs
  | cons x xs =>
    obtain ⟨m, rfl⟩ := Nat.exists_eq_succ_of_ne_zero hsize.ne'
    exact toChunks_go hsize xs #[x] #[] Nat.one_pos hsize

/-- Chunk `b` begins after `b` whole chunks. -/
theorem toChunks_eq {count : ℕ} {xs : List β} (hbegin : ∀ b < count, b * size < xs.length)
    (hend : xs.length ≤ count * size) :
    xs.toChunks size = (List.range count).map fun b => (xs.drop (b * size)).take size := by
  induction count generalizing xs with
  | zero =>
    obtain rfl : xs = [] := List.eq_nil_of_length_eq_zero (by omega)
    rfl
  | succ count ih =>
    have hpos := hbegin 0 count.succ_pos
    rw [Nat.succ_mul] at hend
    have hrest : (xs.drop size).toChunks size =
        (List.range count).map fun b => ((xs.drop size).drop (b * size)).take size := by
      refine ih (fun b hb => ?_) ?_
      · have := hbegin (b + 1) (Nat.succ_lt_succ hb)
        rw [Nat.succ_mul] at this
        rw [List.length_drop]
        omega
      · rw [List.length_drop]
        omega
    rw [toChunks_of_ne_nil hsize (List.ne_nil_of_length_pos (by omega)), hrest,
      List.range_succ_eq_map, List.map_cons, List.map_map, Nat.zero_mul, List.drop_zero]
    refine congrArg _ (List.map_congr_left fun b _ => ?_)
    rw [List.drop_drop, Function.comp_apply, Nat.succ_mul, Nat.add_comm]

end Chunks

namespace RowBlocks

/-! ## On a machine -/

section Machine

variable (A : SizeArithmetic)

/-- The quotient, rounded up, as a machine adds. -/
def quotientUpBy (n size : ℕ) : Option ℕ :=
  if 0 < n % size then A.add (n / size) 1 else some (n / size)

/-- The number of blocks and the length of the last one, as a machine computes them. -/
def partitionBy (n size : ℕ) : Option (ℕ × ℕ) :=
  let size := max size 1
  if n ≤ size then some (1, if n < size then n else 0)
  else (quotientUpBy A n size).map (·, n % size)

/-- The layout of rows in blocks as a machine computes it. -/
def ofRowsBy (n size : ℕ) : Option RowBlocks :=
  let size := max (min size n) 1
  (partitionBy A n size).map fun parts => ⟨n, size, parts.1⟩

/-- The first row of a block and the row after its last one, as a machine computes them. -/
def rangeBy (B : RowBlocks) (b : ℕ) : Option (ℕ × ℕ) := do
  let start ← A.mul b B.size
  let stop ← A.add start B.size
  return (start, min stop B.rows)

variable {A}

theorem quotientUpBy_eq {n size : ℕ} (hsize : 0 < size) (hn : n < UInt64.size) :
    quotientUpBy A n size = some ((n + size - 1) / size) := by
  rw [quotient_up n hsize, quotientUpBy]
  split
  next hrest =>
    have hdiv := Nat.div_add_mod' n size
    have hle : n / size ≤ n / size * size := Nat.le_mul_of_pos_right _ hsize
    exact A.add_exact (by omega)
  next => rfl

theorem partitionBy_eq {n : ℕ} (hn : n < UInt64.size) (size : ℕ) :
    partitionBy A n size = some (partition n size) := by
  unfold partitionBy partition
  simp only
  split
  next => rfl
  next =>
    rw [quotientUpBy_eq (by omega) hn]
    rfl

theorem ofRowsBy_eq {n : ℕ} (hn : n < UInt64.size) (size : ℕ) :
    ofRowsBy A n size = some (ofRows n size) := by
  unfold ofRowsBy
  simp only
  rw [partitionBy_eq hn]
  rfl

theorem rangeBy_eq {B : RowBlocks} {b : ℕ} (h : B.start b + B.size < UInt64.size) :
    B.rangeBy A b = some (B.range b) := by
  have hstart : A.mul b B.size = some (B.start b) :=
    A.mul_exact ((Nat.le_add_right _ _).trans_lt h)
  have hstop : A.add (B.start b) B.size = some (B.start b + B.size) := A.add_exact h
  rw [rangeBy, hstart, Option.bind_eq_bind, Option.bind_some, hstop, range_eq h]
  rfl

/-- A machine that checks its arithmetic stops where the start of a block and the size have no word for
their sum. -/
theorem rangeBy_checked (B : RowBlocks) (b : ℕ) :
    B.rangeBy .checked b =
      if B.start b + B.size < UInt64.size then some (B.range b) else none := by
  by_cases hend : B.start b + B.size < UInt64.size
  · rw [if_pos hend, rangeBy_eq hend]
  · rw [if_neg hend, rangeBy]
    by_cases hstart : b * B.size < UInt64.size
    · have hstop : SizeArithmetic.checked.add (b * B.size) B.size = none := if_neg hend
      rw [SizeArithmetic.mul_exact _ hstart, Option.bind_eq_bind, Option.bind_some, hstop]
      rfl
    · rw [SizeArithmetic.checked_mul_eq_none (not_lt.1 hstart)]
      rfl

-- the start and the size of the second block add up to the least number that is no word
example : (ofRows (2 ^ 64 - 1) (2 ^ 63)).rangeBy .checked 1 = none ∧
    (ofRows (2 ^ 64 - 1) (2 ^ 63)).range 1 = (2 ^ 63, 0) := by decide

end Machine

/-! ## Blocks that have rows -/

/-- Ranges that are not empty and follow one another from zero to `n`; no number is in two of them, and
they have the numbers below `n`. -/
structure Tiles (range : ℕ → ℕ × ℕ) (count n : ℕ) : Prop where
  nonempty : ∀ b < count, (range b).1 < (range b).2
  first : (range 0).1 = 0
  next : ∀ b, b + 1 < count → (range (b + 1)).1 = (range b).2
  last : (range (count - 1)).2 = n
  disjoint : ∀ b c, b < c → c < count → (range b).2 ≤ (range c).1
  cover : ∀ i, i < n ↔ ∃ b < count, (range b).1 ≤ i ∧ i < (range b).2

/-- Every block has rows, and together they have all of them. -/
structure Filled (B : RowBlocks) : Prop where
  start_lt : ∀ b < B.count, B.start b < B.rows
  rows_le : B.rows ≤ B.count * B.size

theorem filled_ofRows {n : ℕ} (hn : 0 < n) (size : ℕ) : (ofRows n size).Filled where
  rows_le := rows_le_count_mul_size n size
  start_lt b hb := by
    have hpos := size_pos n size
    have hlast := (partition_bounds hn (ofRows n size).size).1
    rw [max_eq_left hpos] at hlast
    exact (Nat.mul_le_mul_right _ (Nat.le_pred_of_lt hb)).trans_lt hlast

/-- A block ends before a later one starts. -/
theorem stop_le_start (B : RowBlocks) {b c : ℕ} (h : b < c) : B.stop b ≤ B.start c := by
  have hstart : B.start b + B.size = B.start (b + 1) := (Nat.succ_mul b B.size).symm
  calc B.stop b ≤ B.start (b + 1) := hstart ▸ Nat.min_le_left _ _
    _ ≤ B.start c := Nat.mul_le_mul_right _ h

namespace Filled

variable {B : RowBlocks} {b : ℕ} (h : B.Filled)

include h

theorem size_pos (hb : b < B.count) : 0 < B.size := by
  have hrows := (h.start_lt b hb).trans_le h.rows_le
  exact Nat.pos_of_mul_pos_left ((Nat.zero_le _).trans_lt hrows)

theorem start_lt_stop (hb : b < B.count) : B.start b < B.stop b := by
  have := h.size_pos hb
  exact lt_min (by omega) (h.start_lt b hb)

/-- A block that is not the last one is full. -/
theorem stop_eq (hb : b + 1 < B.count) : B.stop b = B.start b + B.size := by
  refine min_eq_left ?_
  rw [start, ← Nat.succ_mul]
  exact (h.start_lt (b + 1) hb).le

theorem start_succ (hb : b + 1 < B.count) : B.start (b + 1) = B.stop b := by
  rw [h.stop_eq hb, start, Nat.succ_mul, start]

theorem stop_last (hcount : 0 < B.count) : B.stop (B.count - 1) = B.rows := by
  refine min_eq_right ?_
  rw [start, ← Nat.succ_mul, Nat.succ_eq_add_one, Nat.sub_add_cancel hcount]
  exact h.rows_le

/-- The rows of the blocks are the rows of the layout. -/
theorem lt_rows_iff (i : ℕ) : i < B.rows ↔ ∃ b < B.count, B.start b ≤ i ∧ i < B.stop b := by
  constructor
  · intro hi
    have hend : i < B.count * B.size := hi.trans_le h.rows_le
    have hsize : 0 < B.size := Nat.pos_of_mul_pos_left ((Nat.zero_le i).trans_lt hend)
    refine ⟨i / B.size, ?_, Nat.div_mul_le_self i B.size, lt_min ?_ hi⟩
    · exact (Nat.div_lt_iff_lt_mul hsize).2 hend
    · exact Nat.lt_div_mul_add hsize
  · rintro ⟨b, -, -, hi⟩
    exact hi.trans_le (Nat.min_le_right _ _)

/-- The blocks tile the rows, if their ranges are words. -/
theorem tiles (hcount : 0 < B.count)
    (hrange : ∀ b < B.count, B.range b = (B.start b, B.stop b)) :
    Tiles B.range B.count B.rows where
  nonempty b hb := by
    rw [hrange b hb]
    exact h.start_lt_stop hb
  first := Nat.zero_mul _
  next b hb := by
    rw [hrange _ hb, hrange _ (Nat.lt_of_succ_lt hb)]
    exact h.start_succ hb
  last := by
    rw [hrange _ (Nat.sub_one_lt_of_lt hcount)]
    exact h.stop_last hcount
  disjoint b c hbc hc := by
    rw [hrange c hc, hrange b (hbc.trans hc)]
    exact B.stop_le_start hbc
  cover i := by
    refine (h.lt_rows_iff i).trans (exists_congr fun b => and_congr_right fun hb => ?_)
    rw [hrange b hb]

/-- The blocks of a list are its chunks. -/
theorem toChunks_eq {β : Type*} {xs : List β} (hxs : xs.length = B.rows) (hsize : 0 < B.size) :
    xs.toChunks B.size = (List.range B.count).map fun b => xs.extract (B.start b) (B.stop b) := by
  rw [Proximity.toChunks_eq hsize (fun b hb => hxs ▸ h.start_lt b hb) (hxs ▸ h.rows_le)]
  refine List.map_congr_left fun b _ => ?_
  rw [List.extract_eq_take_drop]
  refine List.take_eq_take_iff.2 ?_
  rw [List.length_drop, hxs, stop, start]
  omega

end Filled

/-! ## Workers -/

theorem workers_bounds {B : RowBlocks} (hcount : 0 < B.count) (pool : ℕ) :
    1 ≤ B.workers pool ∧ B.workers pool ≤ B.count := by
  unfold workers
  omega

theorem blocksPerTask_bounds {B : RowBlocks} (hcount : 0 < B.count) (pool : ℕ) :
    1 ≤ B.blocksPerTask pool ∧ B.blocksPerTask pool ≤ B.count := by
  unfold blocksPerTask
  split <;> omega

/-! ## Fewer rows than half the words -/

/-- The start of the last block is a row, and its size is no more than all rows. -/
theorem stop_word {n : ℕ} (hn : 0 < n) (hword : n < 2 ^ 63) (size : ℕ) {b : ℕ}
    (hb : b < (ofRows n size).count) :
    (ofRows n size).start b + (ofRows n size).size < UInt64.size := by
  have hstart : (ofRows n size).start b < n := (filled_ofRows hn size).start_lt b hb
  have hsize : (ofRows n size).size ≤ n := by
    simp only [ofRows]
    omega
  unfold UInt64.size
  omega

/-- The layout of fewer rows than half the words. A machine that checks its arithmetic computes it, and so
does every other; its blocks tile the rows and are the chunks of a list of them, the partition has as many
blocks and tells the length of the last one, and there are blocks for every worker and every task. -/
theorem ranges_tile (A : SizeArithmetic) {n : ℕ} (hn : 0 < n) (hword : n < 2 ^ 63) (most : ℕ) :
    let B := ofRows n most
    let count := (partition n most).1
    let rest := (partition n most).2
    ofRowsBy A n most = some B ∧ partitionBy A n most = some (partition n most) ∧
    (∀ b < B.count, B.rangeBy A b = some (B.range b)) ∧
    Tiles B.range B.count n ∧
    (∀ b, b + 1 < B.count → (B.range b).2 - (B.range b).1 = B.size) ∧
    B.size ≤ max most 1 ∧
    (∀ {β : Type*} (xs : List β), xs.length = n →
      xs.toChunks B.size = (List.range B.count).map fun b => xs.extract (B.range b).1 (B.range b).2) ∧
    count = B.count ∧
    n = (count - 1) * max most 1 + (if rest = 0 then max most 1 else rest) ∧
    ∀ pool, (1 ≤ B.workers pool ∧ B.workers pool ≤ B.count) ∧
      1 ≤ B.blocksPerTask pool ∧ B.blocksPerTask pool ≤ B.count := by
  intro B count rest
  have hfilled : B.Filled := filled_ofRows hn most
  have hn64 : n < UInt64.size := hword.trans (by decide)
  have hsame : count = B.count := partition_fst hn most
  have hcount : 0 < B.count := hsame ▸ partition_fst_pos n most
  have hrange : ∀ b < B.count, B.range b = (B.start b, B.stop b) := fun b hb =>
    range_eq (stop_word hn hword most hb)
  refine ⟨ofRowsBy_eq hn64 most, partitionBy_eq hn64 most, fun b hb => ?_, hfilled.tiles hcount hrange,
    fun b hb => ?_, ?_, fun xs hxs => ?_, hsame, partition_total hn most, fun pool => ?_⟩
  · exact rangeBy_eq (stop_word hn hword most hb)
  · rw [hrange b (Nat.lt_of_succ_lt hb)]
    show B.stop b - B.start b = B.size
    rw [hfilled.stop_eq hb, Nat.add_sub_cancel_left]
  · show max (min most n) 1 ≤ max most 1
    omega
  · rw [hfilled.toChunks_eq hxs (size_pos n most)]
    refine List.map_congr_left fun b hb => ?_
    rw [hrange b (List.mem_range.1 hb)]
  · exact ⟨workers_bounds hcount pool, blocksPerTask_bounds hcount pool⟩

/-- Two full blocks and a short one. -/
theorem ranges_tile_five_rows :
    let B := ofRows 5 2
    (0 < 5 ∧ 5 < 2 ^ 63) ∧ Tiles B.range 3 5 ∧
    (List.range B.count).map B.range = [(0, 2), (2, 4), (4, 5)] ∧
    (∀ b < B.count, B.rangeBy .checked b = some (B.range b)) ∧
    ["a", "b", "c", "d", "e"].toChunks B.size = [["a", "b"], ["c", "d"], ["e"]] := by
  intro B
  have hword : 5 < 2 ^ 63 := by decide
  obtain ⟨-, -, hwords, htiles, -, -, hchunks, -⟩ := ranges_tile .checked (by decide) hword 2
  refine ⟨⟨by decide, hword⟩, htiles, by decide, hwords, ?_⟩
  exact hchunks ["a", "b", "c", "d", "e"] rfl

end RowBlocks

end Proximity
