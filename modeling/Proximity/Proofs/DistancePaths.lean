import Proximity.Proofs.Metrics
import Proximity.Proofs.TransferSteps

/-!
# All ways to a distance

A distance is computed in many places: pair by pair or in a table that is expanded into norms and inner
products, in a tree, in column-major storage, by lanes, and with an early end at a bound. In exact
arithmetic all of them give the same number, so that results that come from one way can be compared
with those of another.

1. `Metric.table_entry` and `Metric.pairwise_ofMatrix`: the table of a metric.
2. `euclideanDistancesOf_exact`: a table with given norms.
3. `Samples.exists_ofGrid`: the rows of a matrix in column-major storage.
4. `distance_paths_agree`.
-/

namespace Proximity

noncomputable section

variable [RealFormat] {r k d : ℕ}

/-! ## Tables -/

/-- The entries of a table are the distances of the metric, also where the table is expanded. -/
theorem Metric.table_entry (m : Metric) (p : ℝ) (x : Matrix ℝ r d) (y : Matrix ℝ k d) (i : Fin r)
    (j : Fin k) : (m.table p x y).entry i j = m.distance p (x.get i) (y.get j) := by
  rw [← m.externalDistance_eq, externalDistance, viaSquares, table]
  by_cases hsq : m.evaluated p = .sqEuclidean
  · rw [if_pos hsq, euclideanDistances_entry, searched, hsq, distance_sqEuclidean]
    by_cases hm : m = .sqEuclidean
    · simp [hm]
    · simp [hm, Point.dist]
  · simp [hsq, eachPair, Matrix.ofFn, Matrix.entry, searched]

theorem Metric.pairwise_ofMatrix [Machine] {m : Metric} {p : ℝ} (hm : m = .minkowski → 0 < p)
    (x : Matrix ℝ r d) (y : Matrix ℝ k d) :
    m.pairwise p (.ofMatrix x) (.ofMatrix y) =
      (tableRoom (Scalar.bytes ℝ) r k).map fun _ => m.table p x y := by
  have hcols : (Grid.ofMatrix y).withCols? d = some y := Grid.shaped?_ofMatrix y
  have hsame : (Grid.ofMatrix x).cols = (Grid.ofMatrix y).cols := rfl
  rw [pairwise, validate_eq_ok hm, if_pos hsame, Grid.entries_ofMatrix,
    show (Grid.ofMatrix y).withCols? (Grid.ofMatrix x).cols = some y from hcols]
  rfl

/-- The norms of a matrix, computed or given. -/
def ExactNorms (M : Matrix ℝ r d) (norms : Option (Array ℝ)) : Prop :=
  norms = none ∨ norms = some M.squaredNorms.toArray

theorem ExactNorms.givenNorms_eq {M : Matrix ℝ r d} {norms : Option (Array ℝ)}
    (h : ExactNorms M norms) : givenNorms M norms = .ok M.squaredNorms := by
  rcases h with rfl | rfl
  · rfl
  · exact dif_pos M.squaredNorms.size_toArray

theorem euclideanDistancesOf_exact [Machine] (x : Matrix ℝ r d) (y : Matrix ℝ k d) {xNorms yNorms}
    (hx : ExactNorms x xNorms) (hy : ExactNorms y yNorms) (squared : Bool) :
    euclideanDistancesOf (.ofMatrix x) (.ofMatrix y) xNorms yNorms squared =
      (tableRoom (Scalar.bytes ℝ) r k).map fun _ => euclideanDistances x y squared := by
  have hcols : (Grid.ofMatrix y).withCols? d = some y := Grid.shaped?_ofMatrix y
  have hread : ExactNorms y (if (Grid.ofMatrix x).rows = 0 then none else yNorms) := by
    split
    · exact Or.inl rfl
    · exact hy
  rw [euclideanDistancesOf, tableOf, Grid.entries_ofMatrix,
    show (Grid.ofMatrix y).withCols? (Grid.ofMatrix x).cols = some y from hcols]
  show ((tableRoom (Scalar.bytes ℝ) r k).bind fun _ => (givenNorms x xNorms).bind fun xn =>
    (givenNorms y (if (Grid.ofMatrix x).rows = 0 then none else yNorms)).bind fun yn =>
      .ok (euclideanTable x y xn yn squared)) = _
  rw [hx.givenNorms_eq, hread.givenNorms_eq]
  rfl

/-! ## Column-major storage -/

omit [RealFormat] in
/-- The samples of a matrix are its rows. -/
theorem Samples.exists_ofGrid (x : Matrix ℝ r d) (hd : 0 < d) :
    ∃ s : Samples ℝ r d, Samples.ofGrid (.ofMatrix x) = .ok s ∧ s.rows = x := by
  let stored : Stored ℝ r d := Stored.ofGrid .columnMajor (.ofMatrix x)
  have hslice : stored.columnSlice = .ok stored.buffer := by
    refine if_neg fun h => h.2 ?_
    have hshape : ¬ (r = 0 ∨ d = 0) := by omega
    rw [Stored.strides, if_neg hshape]
    rfl
  refine ⟨⟨stored.buffer⟩, congrArg (Except.map Samples.mk) hslice, ?_⟩
  refine Vector.ext_get fun i => Vector.ext_get fun j => ?_
  have hr : 0 < r := Nat.zero_lt_of_lt i.isLt
  have hrow : (i.val + j.val * r) % r = i.val := by
    rw [Nat.add_mul_mod_self_right, Nat.mod_eq_of_lt i.isLt]
  have hcol : (i.val + j.val * r) / r = j.val := by
    rw [Nat.add_mul_div_right _ _ hr, Nat.div_eq_of_lt i.isLt, Nat.zero_add]
  let slot : Fin (r * d) := ⟨i.val + j.val * r, slot_lt le_rfl i.isLt j.isLt⟩
  have hcell : Order.columnMajor.cell slot = (i, j) := Prod.ext (Fin.ext hrow) (Fin.ext hcol)
  have hslot : stored.buffer.get slot = (x.get i).get j := by
    rw [show stored.buffer.get slot = (Grid.ofMatrix x).entry (Order.columnMajor.cell slot).1
      (Order.columnMajor.cell slot).2 from Vector.get_ofFn .., hcell, Grid.entry_ofMatrix]
    rfl
  rw [rows, Vector.get_ofFn, point, Strided.toPoint, Vector.get_ofFn]
  exact hslot

theorem Samples.squaredDistanceTo_eq (s : Samples ℝ r d) (i : Fin r) {m : ℕ} (z : Point ℝ m)
    (hm : m ≤ d) :
    s.squaredDistanceTo i z hm = ∑ j : Fin m, (s.rows.entry i (j.castLE hm) - z.get j) ^ 2 := by
  rw [squaredDistanceTo, sumOver_eq_sum]
  refine Finset.sum_congr rfl fun j _ => ?_
  rw [Matrix.entry, rows, Vector.get_ofFn, point, Strided.toPoint, Vector.get_ofFn, sq]
  rfl

/-! ## All ways -/

theorem Transfers.distanceBelow_eq (hd : 0 < d) (x y : Point ℝ d) (bound : ℝ) :
    distanceBelow x y bound = if x.sqDist y < bound then some (x.sqDist y) else none := by
  split
  next h => exact (distanceBelow_eq_some hd).2 ⟨rfl, h⟩
  next h => rwa [← distanceBelow_isSome hd, Option.not_isSome_iff_eq_none] at h

/-- In exact arithmetic the table of a metric has the distances of the metric, and whatever computes a
squared Euclidean distance gives the sum of the squared coordinate differences. -/
theorem distance_paths_agree [Machine] (x : Matrix ℝ r d) (y : Matrix ℝ k d) {m : Metric} {p : ℝ}
    (hm : m = .minkowski → 0 < p) :
    (∃ D : Matrix ℝ r k, m.pairwise p (.ofMatrix x) (.ofMatrix y) =
        (tableRoom (Scalar.bytes ℝ) r k).map (fun _ => D) ∧
      ∀ i j, D.entry i j = m.distance p (x.get i) (y.get j)) ∧
    (∀ xNorms yNorms, ExactNorms x xNorms → ExactNorms y yNorms → ∃ D : Matrix ℝ r k,
      euclideanDistancesOf (.ofMatrix x) (.ofMatrix y) xNorms yNorms true =
        (tableRoom (Scalar.bytes ℝ) r k).map (fun _ => D) ∧
      ∀ i j, D.entry i j = (x.get i).sqDist (y.get j)) ∧
    (∀ T : KdTree ℝ k d, m.evaluated p = .sqEuclidean → let s := Search.settings T.data m p
      (∀ i j, s.distanceTo T.data (KdTree.pointProbe s (x.get i)) j =
        (x.get i).sqDist (T.data.get j)) ∧
      ∀ i j, s.distanceTo T.data (T.selfProbe s i) j = (T.data.get i).sqDist (T.data.get j)) ∧
    ((0 < d → ∃ s : Samples ℝ r d, Samples.ofGrid (.ofMatrix x) = .ok s ∧ s.rows = x) ∧
      ∀ (s : Samples ℝ r d) i m (hm : m ≤ d) (z : Point ℝ m), s.squaredDistanceTo i z hm =
        ∑ j : Fin m, (s.rows.entry i (j.castLE hm) - z.get j) ^ 2) ∧
    (∀ L m (u v : Strided ℝ m), Lanes.squaredDistance L u v = ∑ j, (u.get j - v.get j) ^ 2) ∧
    (0 < d → ∀ i j bound, Transfers.distanceBelow (x.get i) (y.get j) bound =
      if (x.get i).sqDist (y.get j) < bound then some ((x.get i).sqDist (y.get j)) else none) := by
  refine ⟨⟨_, Metric.pairwise_ofMatrix hm x y, m.table_entry p x y⟩,
    fun xNorms yNorms hx hy => ⟨_, euclideanDistancesOf_exact x y hx hy true, fun i j => ?_⟩,
    fun T hsq => ?_, ⟨Samples.exists_ofGrid x, fun s i _ hm z => s.squaredDistanceTo_eq i z hm⟩,
    fun L m u v => ?_, fun hd i j => Transfers.distanceBelow_eq hd (x.get i) (y.get j)⟩
  · rw [euclideanDistances_entry, if_pos rfl]
  · have hdist {q : Probe ℝ k d} (hq : (Search.settings T.data m p).Measured q) (j : Fin k) :
        (Search.settings T.data m p).distanceTo T.data q j = q.point.sqDist (T.data.get j) := by
      rw [Search.distanceTo_eq T.data m p hq, Metric.searched, hsq, Metric.distance_sqEuclidean]
    exact ⟨fun i => hdist (KdTree.pointProbe_measured _ _),
      fun i => hdist (KdTree.selfProbe_measured T m p i)⟩
  · rw [squaredDistance_eq, Point.sqDist]
    simp only [Strided.toPoint, Vector.get_ofFn]

omit [RealFormat] in
/-- Two points whose distance is five, also as a Minkowski distance of order two. -/
theorem distance_paths_agree_five :
    letI := RealFormat.plain
    letI := Machine.standard
    let x : Matrix ℝ 1 2 := #v[#v[0, 3]]
    let y : Matrix ℝ 1 2 := #v[#v[4, 0]]
    (Metric.minkowski = Metric.minkowski → (0 : ℝ) < 2) ∧
    ∃ D : Matrix ℝ 1 1, Metric.minkowski.pairwise 2 (.ofMatrix x) (.ofMatrix y) = .ok D ∧
      D.entry 0 0 = 5 ∧ Transfers.distanceBelow (x.get 0) (y.get 0) 26 = some 25 := by
  let _ := RealFormat.plain
  let _ := Machine.standard
  intro x y
  have hm : Metric.minkowski = Metric.minkowski → (0 : ℝ) < 2 := fun _ => two_pos
  have hsum : (x.get 0).sqDist (y.get 0) = 5 ^ 2 := by
    rw [Point.sqDist, Fin.sum_univ_two]
    show ((0 : ℝ) - 4) ^ 2 + (3 - 0) ^ 2 = 5 ^ 2
    norm_num
  obtain ⟨⟨D, hD, hentry⟩, -, -, -, -, hbelow⟩ := distance_paths_agree x y hm
  refine ⟨hm, D, hD, ?_, ?_⟩
  · rw [hentry, Metric.distance_minkowski_two, hsum, Real.sqrt_sq (by norm_num)]
  · rw [hbelow two_pos, hsum]
    norm_num

end

end Proximity
