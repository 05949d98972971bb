import Proximity.Clustering.Lloyd
import Proximity.Proofs.Distance
import Proximity.Proofs.LeastColumn

/-!
# The assignment of samples to centres

In exact arithmetic the assignment in blocks gives every sample the first of its nearest centres, and
the totals are those of that labelling.

1. `Lanes.Best.Leads`: a search has found the first least of some columns, as that of the kernel does
   (`nearest_leads`), and a row of cross terms is ordered as the distances are
   (`nearest_firstNearest`).
2. `RowBlocks.foldl_rowsOf`, `flatMap_rowOf`: a loop through the blocks is a loop through the rows.
3. `Assignment.inBlocks_spec` and `Lloyd.step_eq`: labels and totals of all rows.
-/

namespace Proximity

noncomputable section

variable {n K d ld : ℕ}

/-! ## The first least column -/

namespace Lanes

/-- What was found is the first least of the columns in `S`, or nothing where all are infinite. -/
def Best.Leads (v : ℕ → Extended ℝ) (S : Set ℕ) (b : Best ℝ) : Prop :=
  match b.value with
  | none => b.column = 0 ∧ ∀ j ∈ S, v j = none
  | some x => b.column ∈ S ∧ v b.column = some x ∧
      ∀ j ∈ S, ∀ y, v j = some y → x < y ∨ x = y ∧ b.column ≤ j

/-- The sum in a column, infinite past the row. -/
def sumAt [RealFormat] (row : Vector ℝ ld) (norms : Vector (Extended ℝ) ld) (j : ℕ) : Extended ℝ :=
  if h : j < ld then columnSum row norms ⟨j, h⟩ else none

theorem sumAt_of_lt [RealFormat] (row : Vector ℝ ld) (norms : Vector (Extended ℝ) ld) {j : ℕ} (h : j < ld) :
    sumAt row norms j = columnSum row norms ⟨j, h⟩ := dif_pos h

variable [RealFormat]

/-- In exact arithmetic what a search has found is the first least of its columns. -/
theorem Best.Found.leads {v : ℕ → Extended ℝ} {S : Set ℕ} {b : Best ℝ} (h : b.Found v S) :
    b.Leads v S := by
  rcases h.source with rfl | ⟨hmem, hv, hbelow⟩
  · refine ⟨rfl, fun j hj => ?_⟩
    by_contra hsum
    obtain ⟨y, hy⟩ := Option.ne_none_iff_exists'.1 hsum
    -- an empty search is ahead of no sum below infinity
    have := (h.ahead j hj).below (Or.inl rfl) (by rw [hy]; rfl)
    cases this
  · obtain ⟨value, column⟩ := b
    cases value with
    | none => cases hbelow
    | some x =>
      refine ⟨hmem, hv, fun j hj y hy => ?_⟩
      have hahead := h.ahead j hj
      rw [hy] at hahead
      rcases hahead rfl with hlt | ⟨hge, hcolumn⟩
      · exact Or.inl (of_decide_eq_true hlt)
      · have hxy : x ≤ y := not_lt.1 (of_decide_eq_false hge)
        exact hxy.lt_or_eq.imp id fun heq => ⟨heq, hcolumn⟩

/-- The kernel's column is the first least of all columns in the chunks. -/
theorem nearest_leads {L : ℕ} (row : Vector ℝ ld) (norms : Vector (Extended ℝ) ld)
    (h : covered L K ≤ ld) :
    ∃ b : Best ℝ, b.column = nearest row norms h ∧
      b.Leads (sumAt row norms) {j | j < covered L K} := by
  obtain ⟨b, hb, found⟩ := nearest_found row norms h
  exact ⟨b, hb, Best.Found.leads found⟩

/-- A row of cross terms with the norms of the centres leads to the first nearest centre. -/
theorem nearest_firstNearest [Positive K] {L : ℕ} (hL : 0 < L) {x : Point ℝ d}
    {centres : Matrix ℝ K d} {row : Vector ℝ ld} (h : covered L K ≤ ld)
    (hrow : ∀ (j : Fin K) (hj : j.val < ld), row.get ⟨j, hj⟩ = crossTerm x (centres.get j)) :
    FirstNearest x centres (Positive.remainder K (nearest row (paddedNorms centres ld) h)) := by
  have hK : K ≤ covered L K := le_covered hL K
  have sum (j : Fin K) : sumAt row (paddedNorms centres ld) j =
      some (x.sqDist (centres.get j) - x.squaredNorm) := by
    have hj : j.val < ld := j.isLt.trans_le (hK.trans h)
    rw [sumAt_of_lt _ _ hj, columnSum, paddedNorms, Vector.get_ofFn, dif_pos j.isLt, hrow,
      ← expanded_eq]
    simp only [Option.map_some, Option.some.injEq, Fin.eta]
    ring
  have none {j : ℕ} (hj : K ≤ j) : sumAt row (paddedNorms centres ld) j = none := by
    unfold sumAt
    split
    · rw [columnSum, paddedNorms, Vector.get_ofFn, dif_neg (by simpa using hj)]; rfl
    · rfl
  obtain ⟨b, hb, lead⟩ := nearest_leads row (paddedNorms centres ld) h
  obtain ⟨value, column⟩ := b
  cases value with
  | none =>
    have := lead.2 _ ((Positive.first K).isLt.trans_le hK)
    rw [sum] at this
    cases this
  | some v =>
    have hcolumn : column < K := by
      by_contra hge
      have := lead.2.1
      rw [none (not_lt.1 hge)] at this
      cases this
    have hlabel : Positive.remainder K (nearest row (paddedNorms centres ld) h) = ⟨column, hcolumn⟩ :=
      Fin.ext (by rw [← hb]; exact Positive.remainder_val hcolumn)
    have hv : v = x.sqDist (centres.get ⟨column, hcolumn⟩) - x.squaredNorm := by
      have := lead.2.1.symm.trans (sum ⟨column, hcolumn⟩)
      exact Option.some.inj this
    have least (j : Fin K) := lead.2.2 j (j.isLt.trans_le hK) _ (sum j)
    rw [hlabel]
    refine ⟨fun j => Point.dist_le_iff.2 ?_, fun j hj => ?_⟩
    · rcases least j with hlt | ⟨heq, -⟩ <;> linarith
    · have hle := Point.dist_le_iff.1 (hj ⟨column, hcolumn⟩)
      rcases least j with hlt | ⟨-, hle'⟩
      · linarith
      · exact hle'

end Lanes

/-! ## Rows in blocks -/

namespace RowBlocks

/-- The blocks reach the last row. -/
theorem rows_le_count_mul_size (n size : ℕ) :
    (ofRows n size).rows ≤ (ofRows n size).count * (ofRows n size).size := by
  rcases Nat.eq_zero_or_pos n with rfl | hn
  · exact Nat.zero_le _
  · have hend := (partition_bounds hn (ofRows n size).size).2
    rw [max_eq_left (size_pos n size)] at hend
    exact hend

/-- The rows of the first `m` blocks, one block after another, are the first rows. -/
theorem flatMap_rows (B : RowBlocks) (m : ℕ) :
    (List.range m).flatMap (fun b => (List.range (B.length b)).map (B.start b + ·)) =
      List.range (min (m * B.size) B.rows) := by
  induction m with
  | zero => simp
  | succ m ih =>
    rw [List.range_succ, List.flatMap_append, ih, List.flatMap_singleton]
    have hlen : B.length m = min (m * B.size + B.size) B.rows - m * B.size := rfl
    rcases Nat.le_total (m * B.size) B.rows with h | h
    · rw [Nat.min_eq_left h, show B.start m = m * B.size from rfl, ← List.range_add, hlen,
        Nat.succ_mul]
      congr 1
      omega
    · rw [hlen, show min (m * B.size + B.size) B.rows - m * B.size = 0 by omega, List.range_zero,
        List.map_nil, List.append_nil, Nat.succ_mul]
      congr 1
      omega

/-- The rows of some blocks, one block after another. -/
def rowsOf (B : RowBlocks) (blocks : List ℕ) : List (Fin B.rows) :=
  blocks.flatMap fun b => (List.finRange (B.length b)).map (B.rowOf b)

/-- A loop through some blocks that goes through the rows of each block is a loop through their rows. -/
theorem foldl_rowsOf {β : Type*} (B : RowBlocks) (f : β → Fin B.rows → β) (blocks : List ℕ) (init : β) :
    blocks.foldl (fun acc b =>
      Fin.foldl (B.length b) (fun acc r => f acc (B.rowOf b r)) acc) init =
        (B.rowsOf blocks).foldl f init := by
  rw [rowsOf, List.foldl_flatMap]
  congr 1
  funext acc b
  rw [Fin.foldl_eq_foldl_finRange, List.foldl_map]

/-- The rows of all blocks, one block after another, are all rows. -/
theorem flatMap_rowOf {B : RowBlocks} (hB : B.rows ≤ B.count * B.size) :
    (List.range B.count).flatMap (fun b => (List.finRange (B.length b)).map (B.rowOf b)) =
      List.finRange B.rows := by
  apply List.map_injective_iff.2 Fin.val_injective
  have hrows := flatMap_rows B B.count
  rw [Nat.min_eq_right hB] at hrows
  rw [List.map_flatMap, List.map_coe_finRange_eq_range, ← hrows]
  refine List.flatMap_congr fun b _ => ?_
  rw [← List.map_coe_finRange_eq_range, List.map_map, List.map_map]
  rfl

end RowBlocks

/-! ## All rows -/

namespace Assignment

/-- Row `i` put into a cluster. -/
def place [RealFormat] (point : Fin n → Point ℝ d) (label : Fin n → Fin K) (a : Assignment ℝ n K d)
    (i : Fin n) : Assignment ℝ n K d where
  labels := a.labels.put i (label i)
  totals := a.totals.map (·.insert (label i) (point i))

variable [RealFormat]

theorem foldl_place_eq (point : Fin n → Point ℝ d) (label : Fin n → Fin K) (rows : List (Fin n)) :
    ∀ a : Assignment ℝ n K d, rows.foldl (place point label) a =
      ⟨rows.foldl (fun labels i => labels.put i (label i)) a.labels,
        a.totals.map fun t => rows.foldl (fun t i => t.insert (label i) (point i)) t⟩ := by
  induction rows with
  | nil => intro a; simp
  | cons i rows ih => intro a; rw [List.foldl_cons, ih, place, Option.map_map]; rfl

theorem foldl_place (point : Fin n → Point ℝ d) (labels start : Vector (Fin K) n)
    (totals : Option (Totals ℝ K d)) :
    Fin.foldl n (place point labels.get) ⟨start, totals⟩ =
      ⟨labels, totals.map fun t =>
        Fin.foldl n (fun t i => t.insert (labels.get i) (point i)) t⟩ := by
  have hlabels : (Fin.foldl n (place point labels.get) ⟨start, totals⟩).labels = labels := by
    have := foldl_invariant (f := place point labels.get) (b := ⟨start, totals⟩)
      (fun m a => ∀ i : Fin n, i.val < m → a.labels.get i = labels.get i)
      (fun i h => absurd h (Nat.not_lt_zero _)) fun i a ih j hj => by
        rw [place, Vector.get_put]
        by_cases hij : i = j
        · rw [if_pos hij, hij]
        · rw [if_neg hij]
          exact ih j (lt_of_le_of_ne (Nat.lt_succ_iff.1 hj) fun e => hij (Fin.ext e.symm))
    exact Vector.ext_get fun i => this i i.isLt
  simp only [Fin.foldl_eq_foldl_finRange, foldl_place_eq] at hlabels ⊢
  rw [hlabels]

/-- A block puts each of its rows into the cluster of its first nearest centre, whatever the work
matrix held before. -/
theorem step_fst (B : RowBlocks) [Clustered B.rows K] (data : Matrix ℝ B.rows d)
    (centres : Matrix ℝ K d) {L : ℕ} (hL : 0 < L) (h : Lanes.covered L K ≤ ld)
    (acc : Assignment ℝ B.rows K d × Matrix ℝ B.size ld) (b : ℕ) :
    (step B data centres (paddedNorms centres ld) h acc b).1 =
      Fin.foldl (B.length b) (fun a r =>
        place data.get (firstNearests data.get centres).get a (B.rowOf b r)) acc.1 := by
  unfold step
  simp only
  congr 1
  funext a r
  have : Positive K := Clustered.positive (B.rowOf b r)
  have hrow (j : Fin K) (hj : j.val < ld) :
      ((writeCross (B.slice data b) centres acc.2).get (r.castLE (B.length_le_size b))).get ⟨j, hj⟩ =
        crossTerm (data.get (B.rowOf b r)) (centres.get j) := by
    have hr : (r.castLE (B.length_le_size b)).val < B.length b := r.isLt
    rw [writeCross, Vector.get_ofFn, dif_pos hr, crossRow, Vector.get_ofFn, dif_pos j.isLt,
      RowBlocks.slice, Vector.get_ofFn]
    rfl
  have hlabel := (Lanes.nearest_firstNearest hL h hrow).unique
    (firstNearests_spec data.get centres (B.rowOf b r))
  rw [place, hlabel]

/-- A task puts the rows of its blocks into clusters, one row after another. -/
theorem task_eq_foldl (B : RowBlocks) [Clustered B.rows K] (data : Matrix ℝ B.rows d)
    (centres : Matrix ℝ K d) {L : ℕ} (hL : 0 < L) (h : Lanes.covered L K ≤ ld) (accumulate : Bool)
    (labels : Vector (Fin K) B.rows) (blocks : List ℕ) :
    task B data centres (paddedNorms centres ld) h accumulate labels blocks =
      (B.rowsOf blocks).foldl (place data.get (firstNearests data.get centres).get)
        ⟨labels, if accumulate then some Totals.zero else none⟩ := by
  have fold (acc : Assignment ℝ B.rows K d × Matrix ℝ B.size ld) :
      (blocks.foldl (step B data centres (paddedNorms centres ld) h) acc).1 =
        blocks.foldl (fun a b => Fin.foldl (B.length b) (fun a r =>
          place data.get (firstNearests data.get centres).get a (B.rowOf b r)) a) acc.1 := by
    induction blocks generalizing acc with
    | nil => rfl
    | cons b blocks ih => rw [List.foldl_cons, List.foldl_cons, ih, step_fst B data centres hL h]
  rw [task, fold, RowBlocks.foldl_rowsOf]

theorem task_eq (B : RowBlocks) [Clustered B.rows K] (hB : B.rows ≤ B.count * B.size)
    (data : Matrix ℝ B.rows d) (centres : Matrix ℝ K d) {L : ℕ} (hL : 0 < L)
    (h : Lanes.covered L K ≤ ld) (accumulate : Bool) (labels : Vector (Fin K) B.rows) :
    task B data centres (paddedNorms centres ld) h accumulate labels (List.range B.count) =
      ⟨firstNearests data.get centres, if accumulate then
        some (Totals.ofLabels data.get (firstNearests data.get centres)) else none⟩ := by
  rw [task_eq_foldl B data centres hL h, RowBlocks.rowsOf, RowBlocks.flatMap_rowOf hB,
    ← Fin.foldl_eq_foldl_finRange, foldl_place]
  cases accumulate <;> rfl

theorem zero_merge (t : Totals ℝ K d) : Totals.zero.merge t = t := by
  obtain ⟨sums, counts⟩ := t
  have hs : Vector.zipWith Point.add (Matrix.const K d (Scalar.zero : ℝ)) sums = sums := by
    refine Vector.ext_get fun l => Vector.ext_get fun j => ?_
    rw [Vector.get_zipWith, Point.add, Vector.get_zipWith, Matrix.const_eq_replicate]
    simp [Scalar.zero]
  have hc : Vector.zipWith (· + ·) (Vector.replicate K 0) counts = counts :=
    Vector.ext_get fun l => by simp
  rw [Totals.merge, Totals.zero, hs, hc]

/-- The assignment in blocks gives every row the first of its nearest centres, and has the totals of
that labelling if they were asked for. -/
theorem inBlocks_eq [Clustered n K] (w : Lanes.Width) (size : ℕ) (data : Matrix ℝ n d)
    (centres : Matrix ℝ K d) (accumulate : Bool) (labels : Vector (Fin K) n) :
    inBlocks w size data centres accumulate labels =
      ⟨firstNearests data.get centres, if accumulate then
        some (Totals.ofLabels data.get (firstNearests data.get centres)) else none⟩ := by
  have hB := RowBlocks.rows_le_count_mul_size n size
  have : Clustered (RowBlocks.ofRows n size).rows K := inferInstanceAs (Clustered n K)
  have task := task_eq (RowBlocks.ofRows n size) hB data centres
    (Lanes.Width.lanes_pos scalar_bytes w) (Lanes.covered_le (Scalar.bytes ℝ) K w) accumulate labels
  unfold inBlocks ofTasks RowBlocks.oneTask
  simp only [List.foldl_cons, List.foldl_nil]
  rw [task]
  cases accumulate
  · rfl
  · simp only [if_true, Option.bind_some, Option.map_some, zero_merge]
    rfl

end Assignment

/-! ## Lloyd's round -/

namespace Lloyd

variable [RealFormat]

/-- A round of Lloyd labels every sample by its first nearest previous centre, and then moves the
centres to the means of that labelling. -/
theorem step_eq [Clustered n K] (w : Lanes.Width) (data : Samples ℝ n d) (update : Bool)
    (s : RunState ℝ n K d) :
    step w data update s =
      let labelled : RunState ℝ n K d :=
        { s with labels.current := firstNearests data.point s.centres.previous }
      if update then labelled.recentre (Totals.ofLabels data.point labelled.labels.current)
      else labelled := by
  have hrows : data.rows.get = data.point :=
    funext fun i => by rw [Samples.rows, Vector.get_ofFn]
  unfold step
  simp only [Assignment.inBlocks_eq, hrows]
  cases update <;> rfl

end Lloyd

end

end Proximity
