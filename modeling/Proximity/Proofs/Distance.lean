import Proximity.Clustering.State
import Proximity.Lanes.SquaredDistance
import Proximity.Metric.Table
import Proximity.Proofs.Exact

/-!
# Distances in exact arithmetic

The squared distance `Point.sqDist` of two points and its root `Point.dist`, which has a triangle
inequality. All ways in which the library computes a Euclidean distance give one of the two: the
metric, the sum by lanes, the table expanded into norms and inner products, the norm of a difference.

`Nearest x centres l` says that no centre is closer to `x` than centre `l`.
-/

namespace Proximity

noncomputable section

/-! ## The distance of two points -/

namespace Point

variable {d : ℕ}

/-- The squared distance of two points. -/
def sqDist (x y : Point ℝ d) : ℝ := ∑ j, (x.get j - y.get j) ^ 2

/-- The distance of two points. -/
def dist (x y : Point ℝ d) : ℝ := √(sqDist x y)

theorem sqDist_nonneg (x y : Point ℝ d) : 0 ≤ sqDist x y :=
  Finset.sum_nonneg fun _ _ => sq_nonneg _

theorem dist_nonneg (x y : Point ℝ d) : 0 ≤ dist x y := Real.sqrt_nonneg _

@[simp] theorem sqDist_self (x : Point ℝ d) : sqDist x x = 0 := by simp [sqDist]

/-- Only a point itself is at no distance from it. -/
theorem sqDist_eq_zero {x y : Point ℝ d} : sqDist x y = 0 ↔ x = y := by
  refine ⟨fun h => Vector.ext_get fun j => ?_, fun h => h ▸ sqDist_self x⟩
  have hj := (Finset.sum_eq_zero_iff_of_nonneg fun _ _ => sq_nonneg _).1 h j (Finset.mem_univ j)
  exact sub_eq_zero.1 (sq_eq_zero_iff.1 hj)

/-- Points with one coordinate. -/
theorem sqDist_line (x y : Point ℝ 1) : sqDist x y = (x.get 0 - y.get 0) ^ 2 := Fin.sum_univ_one _

theorem sqDist_comm (x y : Point ℝ d) : sqDist x y = sqDist y x :=
  Finset.sum_congr rfl fun _ _ => by ring

theorem dist_comm (x y : Point ℝ d) : dist x y = dist y x := by rw [dist, sqDist_comm, dist]

theorem dist_le_iff {x y u v : Point ℝ d} : dist x y ≤ dist u v ↔ sqDist x y ≤ sqDist u v :=
  Real.sqrt_le_sqrt_iff (sqDist_nonneg _ _)

theorem dist_eq (x y : Point ℝ d) :
    dist x y = Dist.dist (WithLp.toLp 2 x.get : EuclideanSpace ℝ (Fin d)) (WithLp.toLp 2 y.get) := by
  rw [EuclideanSpace.dist_eq, dist, sqDist]
  simp only [Real.dist_eq, sq_abs]

theorem dist_triangle (x y z : Point ℝ d) : dist x z ≤ dist x y + dist y z := by
  rw [dist_eq, dist_eq, dist_eq]
  exact PseudoMetricSpace.dist_triangle _ _ _

/-- A point within half the distance of two centres from one of them is not closer to the other. -/
theorem dist_le_of_le_half {x y z : Point ℝ d} (h : dist x y ≤ dist y z / 2) :
    dist x y ≤ dist x z := by
  have := dist_triangle y x z
  rw [dist_comm y x] at this
  linarith

end Point

/-! ## Nearest centres -/

/-- No centre is closer to the point than centre `l`. -/
def Nearest {K d : ℕ} (x : Point ℝ d) (centres : Matrix ℝ K d) (l : Fin K) : Prop :=
  ∀ j, x.dist (centres.get l) ≤ x.dist (centres.get j)

/-- The first of the nearest centres. -/
structure FirstNearest {K d : ℕ} (x : Point ℝ d) (centres : Matrix ℝ K d) (l : Fin K) : Prop where
  nearest : Nearest x centres l
  first : ∀ j, Nearest x centres j → l ≤ j

theorem FirstNearest.unique {K d : ℕ} {x : Point ℝ d} {centres : Matrix ℝ K d} {l l' : Fin K}
    (h : FirstNearest x centres l) (h' : FirstNearest x centres l') : l = l' :=
  le_antisymm (h.first l' h'.nearest) (h'.first l h.nearest)

theorem exists_firstNearest {K d : ℕ} [Positive K] (x : Point ℝ d) (centres : Matrix ℝ K d) :
    ∃ l, FirstNearest x centres l := by
  classical
  obtain ⟨m, -, hm⟩ := Finset.exists_min_image Finset.univ (fun l => x.dist (centres.get l))
    ⟨Positive.first K, Finset.mem_univ _⟩
  have hne : (Finset.univ.filter (Nearest x centres)).Nonempty :=
    ⟨m, by simpa [Nearest] using fun j => hm j (Finset.mem_univ j)⟩
  refine ⟨_, (Finset.mem_filter.1 (Finset.min'_mem _ hne)).2, fun j hj => ?_⟩
  exact Finset.min'_le _ _ (Finset.mem_filter.2 ⟨Finset.mem_univ j, hj⟩)

/-- The index of the first nearest centre of each point. -/
def firstNearests {n K d : ℕ} [Clustered n K] (point : Fin n → Point ℝ d) (centres : Matrix ℝ K d) :
    Vector (Fin K) n :=
  Vector.ofFn fun i =>
    have : Positive K := Clustered.positive i
    (exists_firstNearest (point i) centres).choose

theorem firstNearests_spec {n K d : ℕ} [Clustered n K] (point : Fin n → Point ℝ d)
    (centres : Matrix ℝ K d) (i : Fin n) :
    FirstNearest (point i) centres ((firstNearests point centres).get i) := by
  have : Positive K := Clustered.positive i
  rw [firstNearests, Vector.get_ofFn]
  exact (exists_firstNearest (point i) centres).choose_spec

theorem firstNearests_eq {n K d : ℕ} [Clustered n K] {point : Fin n → Point ℝ d}
    {centres : Matrix ℝ K d} {labels : Vector (Fin K) n}
    (h : ∀ i, FirstNearest (point i) centres (labels.get i)) : firstNearests point centres = labels :=
  Vector.ext_get fun i => (firstNearests_spec point centres i).unique (h i)

/-! ## What is computed -/

variable [RealFormat] {d : ℕ}

theorem squared_eq (x y : Point ℝ d) : Metric.squared x y = x.sqDist y := by
  rw [Metric.squared, sumOver_eq_sum]
  exact Finset.sum_congr rfl fun _ _ => by ring

theorem Point.dot_comm (x y : Point ℝ d) : x.dot y = y.dot x := by
  rw [Point.dot, Point.dot]
  exact congrArg (sumOver d) (funext fun _ => mul_comm _ _)

theorem squaredNorm_sub (x y : Point ℝ d) : (x.sub y).squaredNorm = x.sqDist y := by
  rw [Point.squaredNorm, Point.dot, sumOver_eq_sum]
  exact Finset.sum_congr rfl fun _ _ => by rw [Point.sub, Vector.get_zipWith]; ring

theorem expanded_eq (x y : Point ℝ d) :
    crossTerm x y + x.squaredNorm + y.squaredNorm = x.sqDist y := by
  simp only [crossTerm, Point.squaredNorm, Point.dot, sumOver_eq_sum, Scalar.two, scalar_ofNat,
    Point.sqDist, Finset.mul_sum, ← Finset.sum_add_distrib]
  exact Finset.sum_congr rfl fun _ _ => by push_cast; ring

theorem euclideanDistances_entry {r k : ℕ} (x : Matrix ℝ r d) (y : Matrix ℝ k d) (squared : Bool)
    (i : Fin r) (j : Fin k) : (euclideanDistances x y squared).entry i j =
      if squared then (x.get i).sqDist (y.get j) else (x.get i).dist (y.get j) := by
  simp only [Matrix.entry, euclideanDistances, euclideanTable, Vector.get_map, squaredTable,
    Matrix.ofFn, Vector.get_ofFn, Matrix.squaredNorms, expanded_eq, clampedDistance, scalar_max,
    scalar_sqrt, scalar_zero]
  rw [max_eq_left (Point.sqDist_nonneg _ _), Point.dist]

/-! ### Sums by lanes -/

omit [RealFormat] in
theorem sum_range_chunks (g : ℕ → ℝ) (q L : ℕ) :
    ∑ k ∈ Finset.range (q * L), g k =
      ∑ c ∈ Finset.range q, ∑ l ∈ Finset.range L, g (c * L + l) := by
  induction q with
  | zero => simp
  | succ q ih => rw [Nat.succ_mul, Finset.sum_range_add, ih, Finset.sum_range_succ]

/-- The sum by lanes is the sum. -/
theorem sumByLanes_eq_sum {m : ℕ} (L : ℕ) (term : Fin m → ℝ) :
    Lanes.sumByLanes L term = ∑ k, term k := by
  let g (k : ℕ) : ℝ := if h : k < m then term ⟨k, h⟩ else 0
  have read {k : ℕ} (h : k < m) : term ⟨k, h⟩ = g k := by simp [g, h]
  have lane (l : Fin L) :
      Lanes.laneSum L term l = ∑ c ∈ Finset.range (m / L), g (c * L + l.val) := by
    simp only [Lanes.laneSum, sumOver_eq_sum, read]
    exact Fin.sum_univ_eq_sum_range (fun c => g (c * L + l.val)) _
  have rest : Lanes.remainderSum L term =
      ∑ r ∈ Finset.range (m % L), g (m / L * L + r) := by
    have cut : m - m % L = m / L * L := by have := Nat.div_add_mod' m L; omega
    simp only [Lanes.remainderSum, sumOver_eq_sum, read, cut]
    exact Fin.sum_univ_eq_sum_range (fun r => g (m / L * L + r)) _
  have fold (b : ℝ) :
      Fin.foldl L (fun acc l => acc + Lanes.laneSum L term l) b =
        b + ∑ l, Lanes.laneSum L term l :=
    foldl_add id (fun l => Lanes.laneSum L term l) (fun _ _ => rfl) b
  calc Lanes.sumByLanes L term
      = (∑ r ∈ Finset.range (m % L), g (m / L * L + r)) +
          ∑ l ∈ Finset.range L, ∑ c ∈ Finset.range (m / L), g (c * L + l) := by
        rw [Lanes.sumByLanes, fold, rest]
        simp only [lane]
        rw [Fin.sum_univ_eq_sum_range (fun l => ∑ c ∈ Finset.range (m / L), g (c * L + l)) L]
    _ = ∑ k ∈ Finset.range (m / L * L + m % L), g k := by
        rw [Finset.sum_comm, Finset.sum_range_add, sum_range_chunks, add_comm]
    _ = ∑ k, term k := by
        rw [Nat.div_add_mod', ← Fin.sum_univ_eq_sum_range]
        exact Finset.sum_congr rfl fun k _ => (read k.isLt).symm

theorem squaredDistance_eq {L : ℕ} (x y : Strided ℝ d) :
    Lanes.squaredDistance L x y = x.toPoint.sqDist y.toPoint := by
  rw [Lanes.squaredDistance, sumByLanes_eq_sum, Point.sqDist]
  exact Finset.sum_congr rfl fun _ _ => by
    simp only [Lanes.squaredDifference, Strided.toPoint, Vector.get_ofFn]; ring

end

end Proximity
