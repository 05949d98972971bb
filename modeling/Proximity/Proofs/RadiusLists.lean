import Proximity.Proofs.ClosePairs

/-!
# The lists of the exhaustive radius search

The list of a row has the near rows before it and then the near rows after it, whatever numbers the
distances are: a distance that is no number is near nothing. The search evaluates a pair once, in the
tile where its smaller row is a row and its greater row a column, and nothing but the distance found
there decides for both lists.

1. `nearRows`: the list that a table of distances gives a row, and `neighbourLists_eq`: the search
   finds these lists.
2. `tileTable` and `tiledLists`: the distances of a tile, and the search that reads them tile by tile.
3. `radius_lists_ascend`.
-/

namespace Proximity

/-! ## Near rows -/

section NearRows

variable {α : Type} [LE α] [DecidableLE α] {n : ℕ}

/-- The rows before `v` that are near it and then those after it, read above the diagonal of a table. -/
def nearRows (D : Fin n → Fin n → α) (bound : α) (v : Fin n) : List (Fin n) :=
  ((List.finRange n).filter fun i => i < v ∧ D i v ≤ bound) ++
    (List.finRange n).filter fun j => v < j ∧ D v j ≤ bound

variable {D D' : Fin n → Fin n → α} {bound : α} {v w : Fin n}

theorem mem_nearRows :
    w ∈ nearRows D bound v ↔ w < v ∧ D w v ≤ bound ∨ v < w ∧ D v w ≤ bound := by
  simp [nearRows]

theorem nearRows_ascending : (nearRows D bound v).Pairwise (· < ·) := by
  refine List.pairwise_append.2 ⟨(List.pairwise_lt_finRange n).filter _,
    (List.pairwise_lt_finRange n).filter _, fun i hi j hj => ?_⟩
  have hiv : i < v := (of_decide_eq_true (List.mem_filter.1 hi).2).1
  have hvj : v < j := (of_decide_eq_true (List.mem_filter.1 hj).2).1
  exact hiv.trans hvj

theorem not_mem_nearRows : v ∉ nearRows D bound v := by
  rw [mem_nearRows]
  rintro (⟨h, -⟩ | ⟨h, -⟩) <;> exact lt_irrefl v h

/-- Two rows are in each other's lists or in neither's. -/
theorem mem_nearRows_comm : w ∈ nearRows D bound v ↔ v ∈ nearRows D bound w := by
  rw [mem_nearRows, mem_nearRows, or_comm]

/-- Nothing on or below the diagonal is read. -/
theorem nearRows_congr (h : ∀ i j, i < j → D i j = D' i j) :
    nearRows D bound v = nearRows D' bound v := by
  refine congrArg₂ (· ++ ·) (List.filter_congr fun i _ => ?_) (List.filter_congr fun j _ => ?_)
  · exact decide_eq_decide.2 (and_congr_right fun hlt => by rw [h i v hlt])
  · exact decide_eq_decide.2 (and_congr_right fun hlt => by rw [h v j hlt])

/-- The search finds these lists, whatever the tiles are and however they are shared out. -/
theorem neighbourLists_eq {B : RowBlocks} (hB : B.rows ≤ B.count * B.size)
    (D : Fin B.rows → Fin B.rows → α) (bound : α) {tasks : List (List (ℕ × ℕ))}
    (htasks : tasks.flatten = B.upperTiles) :
    neighbourLists (B.closePairs (fun i j => D i j ≤ bound) tasks) =
      Vector.ofFn (nearRows D bound) := by
  refine Vector.ext_get fun v => ?_
  obtain ⟨hascending, hmem⟩ := neighbours_spec hB (fun i j => D i j ≤ bound) htasks v
  rw [Vector.get_ofFn]
  refine hascending.eq_of_mem_iff nearRows_ascending fun i => (hmem i).trans ?_
  rw [mem_nearRows, decide_eq_true_iff, decide_eq_true_iff]

end NearRows

/-! ## Tiles -/

namespace RowBlocks

variable {α : Type} {B : RowBlocks} {d : ℕ}

variable [Add α] [Sub α] [Mul α] [Div α] [Neg α] [LT α] [LE α] [DecidableLT α] [DecidableLE α]
  [BEq α] [Scalar α]

/-- The distances that are computed for a tile, in the units of the search: an expansion into the
norms of all rows, which are computed once, or one distance for each pair. -/
def tileTable (B : RowBlocks) (m : Metric) (p : α) (M : Matrix α B.rows d) (tile : ℕ × ℕ) :
    Matrix α (B.length tile.1) (B.length tile.2) :=
  let norms (b : ℕ) := Vector.ofFn fun r => M.squaredNorms.get (B.rowOf b r)
  if m.evaluated p = .sqEuclidean then
    euclideanTable (B.slice M tile.1) (B.slice M tile.2) (norms tile.1) (norms tile.2) true
  else m.table p (B.slice M tile.1) (B.slice M tile.2)

omit [LT α] [LE α] [DecidableLT α] [DecidableLE α] in
/-- What is computed for two rows does not depend on the tile that they are in. -/
theorem tileTable_entry (m : Metric) (p : α) (M : Matrix α B.rows d) (tile : ℕ × ℕ)
    (r : Fin (B.length tile.1)) (c : Fin (B.length tile.2)) :
    (B.tileTable m p M tile).entry r c =
      searchDistance m p M M.squaredNorms (B.rowOf tile.1 r) (B.rowOf tile.2 c) := by
  unfold tileTable searchDistance Matrix.entry
  by_cases hsq : m.evaluated p = .sqEuclidean
  · simp only [if_pos hsq, euclideanTable, squaredTable, Matrix.ofFn, slice, Vector.get_map,
      Vector.get_ofFn]
  · simp only [if_neg hsq, Metric.table, Metric.eachPair, Matrix.ofFn, slice, Vector.get_ofFn]

/-- The table has the distance that a tile computes for any two rows, the smaller row first. -/
def Tabulates (B : RowBlocks) (m : Metric) (p : α) (M : Matrix α B.rows d)
    (D : Fin B.rows → Fin B.rows → α) : Prop :=
  ∀ tile ∈ B.upperTiles, ∀ r c, B.rowOf tile.1 r < B.rowOf tile.2 c →
    D (B.rowOf tile.1 r) (B.rowOf tile.2 c) = (B.tileTable m p M tile).entry r c

omit [LT α] [LE α] [DecidableLT α] [DecidableLE α] in
theorem searchDistance_tabulates (m : Metric) (p : α) (M : Matrix α B.rows d) :
    B.Tabulates m p M (searchDistance m p M M.squaredNorms) :=
  fun tile _ r c _ => (tileTable_entry m p M tile r c).symm

omit [LT α] [LE α] [DecidableLT α] [DecidableLE α] in
/-- Some tile computes the distance of any two rows. -/
theorem Tabulates.eq_searchDistance (hB : B.rows ≤ B.count * B.size) {m : Metric} {p : α}
    {M : Matrix α B.rows d} {D : Fin B.rows → Fin B.rows → α} (hD : B.Tabulates m p M D)
    {i j : Fin B.rows} (hij : i < j) : D i j = searchDistance m p M M.squaredNorms i j := by
  obtain ⟨I, -, r, rfl⟩ := exists_rowOf hB i
  obtain ⟨J, hJ, c, rfl⟩ := exists_rowOf hB j
  have htile : (I, J) ∈ B.upperTiles := mem_upperTiles.2 ⟨hJ, le_of_rowOf_le hij.le⟩
  exact (hD (I, J) htile r c hij).trans (tileTable_entry m p M (I, J) r c)

/-- The near pairs of a tile, column by column of the table of its distances. A tile on the diagonal is
read above its own diagonal. -/
def pairsOfTable (B : RowBlocks) (tile : ℕ × ℕ) (D : Matrix α (B.length tile.1) (B.length tile.2))
    (bound : α) : List (Fin B.rows × Fin B.rows) :=
  (List.finRange (B.length tile.2)).flatMap fun c =>
    ((List.finRange (B.length tile.1)).filter fun r =>
      (tile.1 ≠ tile.2 || r.val < c.val) && D.entry r c ≤ bound).map
        fun r => (B.rowOf tile.1 r, B.rowOf tile.2 c)

/-- The lists of a search that goes through the tiles of some tasks. -/
def tiledLists (B : RowBlocks) (m : Metric) (p : α) (M : Matrix α B.rows d) (bound : α)
    (tasks : List (List (ℕ × ℕ))) : Vector (List (Fin B.rows)) B.rows :=
  neighbourLists <| tasks.flatMap fun tiles => tiles.flatMap fun tile =>
    B.pairsOfTable tile (B.tileTable m p M tile) bound

omit [LT α] [DecidableLT α] in
theorem tiledLists_eq (hB : B.rows ≤ B.count * B.size) (m : Metric) (p : α)
    (M : Matrix α B.rows d) (bound : α) {tasks : List (List (ℕ × ℕ))}
    (htasks : tasks.flatten = B.upperTiles) :
    B.tiledLists m p M bound tasks =
      Vector.ofFn (nearRows (searchDistance m p M M.squaredNorms) bound) := by
  have hpairs (tile : ℕ × ℕ) : B.pairsOfTable tile (B.tileTable m p M tile) bound =
      B.pairsOfTile (fun i j => searchDistance m p M M.squaredNorms i j ≤ bound) tile := by
    unfold pairsOfTable pairsOfTile
    simp only [tileTable_entry]
  rw [← neighbourLists_eq hB _ bound htasks, tiledLists, closePairs]
  simp only [hpairs]

end RowBlocks

section Search

variable {α : Type} [Add α] [Sub α] [Mul α] [Div α] [Neg α] [LT α] [LE α] [DecidableLT α]
  [DecidableLE α] [BEq α] [Scalar α]

/-- The list of a row has the near rows before it and then the near rows after it, by the distances that
are computed for rows in ascending order. It does not depend on the tiles and on how they are shared
out, no row is in its own list, and two rows are in each other's lists or in neither's. -/
theorem radius_lists_ascend (g : Grid α) (hr : 0 < g.rows) (hc : 0 < g.cols) {m : Metric} {p : α}
    (hm : m = .minkowski → Scalar.zero < p) {eps : α} (heps : Scalar.zero ≤ eps) :
    ∃ bound found, m.internalRadius p eps = .ok bound ∧ g.radiusNeighbours eps m p = .ok found ∧
      (∀ size tasks, let B := RowBlocks.ofRows g.rows size
        tasks.flatten = B.upperTiles → B.tiledLists m p g.entries bound tasks = found ∧
          ∀ D, B.Tabulates m p g.entries D → ∀ v, found.get v = nearRows D bound v) ∧
      ∀ v, (found.get v).Pairwise (· < ·) ∧ v ∉ found.get v ∧
        ∀ w, w ∈ found.get v ↔ v ∈ found.get w := by
  let D (i j : Fin g.rows) : α := searchDistance m p g.entries g.entries.squaredNorms i j
  let bound := if m.viaSquares p then eps * eps else eps
  have hbound : m.internalRadius p eps = .ok bound := if_neg (not_not.2 heps)
  have hvalid : m.validate p = .ok () := if_neg fun h => h.2 (hm h.1)
  have hfound : g.radiusNeighbours eps m p = .ok (Vector.ofFn (nearRows D bound)) := by
    have hshape : ¬ (g.rows = 0 ∨ g.cols = 0) := by omega
    have hB := RowBlocks.rows_le_count_mul_size g.rows radiusTile
    rw [Grid.radiusNeighbours, hvalid, hbound, if_neg hshape]
    exact congrArg Except.ok (neighbourLists_eq hB D bound List.flatten_singleton)
  refine ⟨bound, Vector.ofFn (nearRows D bound), hbound, hfound, fun size tasks => ?_, fun v => ?_⟩
  · intro B htasks
    have hB := RowBlocks.rows_le_count_mul_size g.rows size
    refine ⟨RowBlocks.tiledLists_eq hB m p g.entries bound htasks, fun D' hD' v => ?_⟩
    rw [Vector.get_ofFn]
    exact nearRows_congr fun i j hij => (hD'.eq_searchDistance hB hij).symm
  · simp only [Vector.get_ofFn]
    exact ⟨nearRows_ascending, not_mem_nearRows, fun w => mem_nearRows_comm⟩

end Search

/-- Four rows, the second of which is no number and is near to none. -/
theorem radius_lists_ascend_four_rows :
    let g : Grid Float := ⟨4, 1, #v[0, 0 / 0, 1, 0.5]⟩
    (Scalar.zero : Float) ≤ 1 ∧
    ∃ found, g.radiusNeighbours 1 .manhattan 1 = .ok found ∧ found.get 0 = [2, 3] ∧
      found.get 1 = [] ∧ found.get 3 = [0, 2] := by
  intro g
  have heps : (Scalar.zero : Float) ≤ 1 := by decide +kernel
  obtain ⟨bound, found, hbound, hfound, htiled, -⟩ :=
    radius_lists_ascend g (by decide) (by decide) (m := .manhattan) (p := 1)
      Metric.noConfusion heps
  have hradius : Metric.manhattan.internalRadius 1 1 = .ok (1 : Float) := if_neg (not_not.2 heps)
  obtain rfl : 1 = bound := Except.ok.inj (hradius.symm.trans hbound)
  have htable := RowBlocks.searchDistance_tabulates (B := RowBlocks.ofRows 4 3) .manhattan 1 g.entries
  have hlists := (htiled 3 [(RowBlocks.ofRows 4 3).upperTiles] List.flatten_singleton).2 _ htable
  let D (i j : Fin 4) : Float :=
    searchDistance .manhattan 1 g.entries g.entries.squaredNorms i j
  have hread (v : Fin 4) : found.get v = nearRows D 1 v := hlists v
  refine ⟨heps, found, hfound, (hread 0).trans ?_, (hread 1).trans ?_, (hread 3).trans ?_⟩
  · decide +kernel
  · decide +kernel
  · decide +kernel

end Proximity
