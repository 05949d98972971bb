import Proximity.Neighbours.Tree.Search
import Proximity.Proofs.Distance

/-!
# Metrics in exact arithmetic

A search evaluates squared distances in place of Euclidean ones, and radii and distances go from the
units of the caller to those of the search and back. In a tree all metrics have one form: the gauge of
the coordinate differences, which does not fall when a difference grows, and which no single
difference exceeds. Boxes and splits rely on nothing else.

1. `externalDistance_eq` and `le_searchRadius_iff`: the two units.
2. `Search.Sound`: the settings that a tree searches with, and `Search.gauge`.
3. `gauge_mono` and `reachUnits_le_gauge`; `distanceTo_eq`: the distance of a row is a gauge.
-/

namespace Proximity

noncomputable section

variable [RealFormat] {n d : ℕ}

/-! ## Units of a search -/

namespace Metric

/-- The distance that a search evaluates. -/
abbrev searched (m : Metric) (p : ℝ) (x y : Point ℝ d) : ℝ := (m.evaluated p).distance p x y

/-- A radius in the units of a search. -/
def searchRadius (m : Metric) (p eps : ℝ) : ℝ := if m.viaSquares p then eps * eps else eps

theorem internalRadius_eq {eps : ℝ} (m : Metric) (p : ℝ) (heps : 0 ≤ eps) :
    m.internalRadius p eps = .ok (m.searchRadius p eps) := by
  rw [internalRadius, scalar_zero, if_neg (not_not.2 heps), searchRadius]

theorem searchRadius_nonneg {eps : ℝ} (m : Metric) (p : ℝ) (heps : 0 ≤ eps) :
    0 ≤ m.searchRadius p eps := by
  unfold searchRadius
  split
  · exact mul_self_nonneg eps
  · exact heps

theorem distance_sqEuclidean (p : ℝ) (x y : Point ℝ d) :
    sqEuclidean.distance p x y = x.sqDist y := squared_eq x y

theorem distance_manhattan (p : ℝ) (x y : Point ℝ d) :
    manhattan.distance p x y = ∑ j, |x.get j - y.get j| := by
  simp only [distance, absolute, sumOver_eq_sum, scalar_abs]

theorem distance_minkowski_two (x y : Point ℝ d) :
    minkowski.distance 2 x y = √(x.sqDist y) := by
  simp only [distance, powers, sumOver_eq_sum, scalar_pow, scalar_abs, Scalar.recip, scalar_one,
    Real.rpow_two, sq_abs, Real.sqrt_eq_rpow, Point.sqDist]

/-- The distance of a search in the units of the caller. -/
theorem externalDistance_eq (m : Metric) (p : ℝ) (x y : Point ℝ d) :
    m.externalDistance p (m.searched p x y) = m.distance p x y := by
  cases m with
  | euclidean => rfl
  | sqEuclidean => rfl
  | manhattan => rfl
  | cosine => rfl
  | minkowski =>
    by_cases hp : p = 2
    · subst hp
      have hsquares : minkowski.evaluated (2 : ℝ) = sqEuclidean := by
        simp [evaluated]
      simp only [externalDistance, viaSquares, searched, hsquares, distance_sqEuclidean,
        distance_minkowski_two, scalar_sqrt]
      rfl
    · have hpowers : minkowski.evaluated p = minkowski := by
        simp [evaluated, hp]
      simp [externalDistance, viaSquares, searched, hpowers]

/-- A point is as near as the radius says in either units. -/
theorem le_searchRadius_iff {eps : ℝ} (m : Metric) (p : ℝ) (heps : 0 ≤ eps) (x y : Point ℝ d) :
    m.searched p x y ≤ m.searchRadius p eps ↔ m.distance p x y ≤ eps := by
  rw [← externalDistance_eq, externalDistance, searchRadius]
  split
  · rw [scalar_sqrt, Real.sqrt_le_left heps, sq]
  · exact Iff.rfl

theorem distance_comm (m : Metric) (p : ℝ) (x y : Point ℝ d) :
    m.distance p x y = m.distance p y x := by
  cases m with
  | euclidean => exact congrArg Real.sqrt (by rw [squared_eq, Point.sqDist_comm, squared_eq])
  | sqEuclidean => rw [distance_sqEuclidean, Point.sqDist_comm, distance_sqEuclidean]
  | manhattan => simp only [distance_manhattan, abs_sub_comm]
  | minkowski => simp only [distance, powers, scalar_abs, abs_sub_comm]
  | cosine => simp only [distance, Point.dot_comm x y, mul_comm (normOrOne x)]

/-- The external units are a monotone reading of the internal ones. -/
theorem externalDistance_mono (m : Metric) (p : ℝ) {v w : ℝ} (h : v ≤ w) :
    m.externalDistance p v ≤ m.externalDistance p w := by
  unfold externalDistance
  split
  · exact Real.sqrt_le_sqrt h
  · exact h

/-- The exhaustive search evaluates the same distance. -/
theorem searchDistance_eq (m : Metric) (p : ℝ) (M : Matrix ℝ n d) (i j : Fin n) :
    searchDistance m p M M.squaredNorms i j = m.searched p (M.get i) (M.get j) := by
  unfold searchDistance
  split
  next h =>
    rw [Matrix.squaredNorms, Vector.get_map, Vector.get_map, expanded_eq, searched, h,
      distance_sqEuclidean, clampedDistance, scalar_zero]
    exact max_eq_left (Point.sqDist_nonneg _ _)
  next => rfl

theorem validate_eq_ok {m : Metric} {p : ℝ} (h : m = minkowski → 0 < p) : m.validate p = .ok () := by
  refine if_neg fun hm => hm.2 ?_
  rw [scalar_zero]
  exact h hm.1

/-- The metrics that a tree answers for. -/
def Searchable (m : Metric) (p : ℝ) : Prop := m ≠ cosine ∧ (m = minkowski → 1 ≤ p)

omit [RealFormat] in
theorem Searchable.pos {m : Metric} {p : ℝ} (h : m.Searchable p) : m = minkowski → 0 < p :=
  fun hm => zero_lt_one.trans_le (h.2 hm)

end Metric

/-! ## Gauges -/

namespace Search

/-- The settings that a tree searches with. -/
def Sound (s : Search ℝ n) : Prop :=
  s.metric = .sqEuclidean ∨ s.metric = .manhattan ∨
    s.metric = .minkowski ∧ 1 ≤ s.p ∧ s.inverse = s.p⁻¹

/-- What a coordinate difference adds. -/
def term (s : Search ℝ n) (v : ℝ) : ℝ := s.contribution (s.reachUnits v)

/-- The value that the metric of a search has for some coordinate differences. -/
def gauge (s : Search ℝ n) (δ : Fin d → ℝ) : ℝ := s.total (∑ j, s.term (δ j))

theorem checkMetric_ok {m : Metric} {p : ℝ} (h : m.Searchable p) : checkMetric m p = .ok () := by
  unfold checkMetric
  have hone : ¬ (m = .minkowski ∧ p < (Scalar.one : ℝ)) := fun hm =>
    (h.2 hm.1).not_gt (by rw [← scalar_one]; exact hm.2)
  rw [Metric.validate_eq_ok h.pos, if_neg h.1, if_neg hone]
  rfl

theorem settings_sound (M : Matrix ℝ n d) {m : Metric} {p : ℝ} (h : m.Searchable p) :
    (settings M m p).Sound := by
  cases m with
  | euclidean => exact Or.inl rfl
  | sqEuclidean => exact Or.inl rfl
  | manhattan => exact Or.inr (Or.inl rfl)
  | cosine => exact absurd rfl h.1
  | minkowski =>
    by_cases hp : p = 2
    · refine Or.inl ?_
      simp [settings, Metric.evaluated, hp]
    · refine Or.inr (Or.inr ?_)
      simp [settings, Metric.evaluated, hp, h.2 rfl, Scalar.recip]

theorem settings_distance (M : Matrix ℝ n d) (m : Metric) (p : ℝ) (x y : Point ℝ d) :
    (settings M m p).metric.distance (settings M m p).p x y = m.searched p x y := by
  show (m.evaluated p).distance (if m.evaluated p = .manhattan then Scalar.one else p) x y = _
  split
  next h => rw [Metric.searched, h]; rfl
  next => rfl

omit [RealFormat] in
theorem reachUnits_lt (s : Search ℝ n) {v w : ℝ} (hv : 0 ≤ v) (hvw : v < w) :
    s.reachUnits v < s.reachUnits w := by
  unfold reachUnits
  split
  · exact mul_self_lt_mul_self hv hvw
  · exact hvw

omit [RealFormat] in
theorem reachUnits_le (s : Search ℝ n) {v w : ℝ} (hv : 0 ≤ v) (hvw : v ≤ w) :
    s.reachUnits v ≤ s.reachUnits w := by
  rcases hvw.eq_or_lt with rfl | hlt
  · exact le_rfl
  · exact (s.reachUnits_lt hv hlt).le

variable {s : Search ℝ n} (hs : s.Sound)

include hs

theorem Sound.term_nonneg {v : ℝ} (hv : 0 ≤ v) : 0 ≤ s.term v := by
  unfold term contribution reachUnits
  rcases hs with h | h | ⟨h, hp, -⟩
  · simp [h, mul_self_nonneg]
  · simpa [h] using hv
  · simpa [h] using Real.rpow_nonneg hv s.p

theorem Sound.term_mono {v w : ℝ} (hv : 0 ≤ v) (hvw : v ≤ w) : s.term v ≤ s.term w := by
  unfold term contribution reachUnits
  rcases hs with h | h | ⟨h, hp, -⟩
  · simpa [h] using mul_self_le_mul_self hv hvw
  · simpa [h] using hvw
  · simpa [h] using Real.rpow_le_rpow hv hvw (zero_le_one.trans hp)

theorem Sound.total_mono {v w : ℝ} (hv : 0 ≤ v) (hvw : v ≤ w) : s.total v ≤ s.total w := by
  unfold total
  rcases hs with h | h | ⟨h, hp, hinv⟩
  · simpa [h] using hvw
  · simpa [h] using hvw
  · have : 0 ≤ s.inverse := by rw [hinv]; exact inv_nonneg.2 (zero_le_one.trans hp)
    simpa [h] using Real.rpow_le_rpow hv hvw this

/-- The total undoes a single contribution. -/
theorem Sound.total_term {v : ℝ} (hv : 0 ≤ v) : s.total (s.term v) = s.reachUnits v := by
  unfold term total contribution reachUnits
  rcases hs with h | h | ⟨h, hp, hinv⟩
  · simp [h]
  · simp [h]
  · simp [h, hinv, Real.rpow_rpow_inv hv (zero_lt_one.trans_le hp).ne']

theorem Sound.gauge_mono {δ ε : Fin d → ℝ} (hδ : ∀ j, 0 ≤ δ j) (h : ∀ j, δ j ≤ ε j) :
    s.gauge δ ≤ s.gauge ε :=
  hs.total_mono (Finset.sum_nonneg fun j _ => hs.term_nonneg (hδ j))
    (Finset.sum_le_sum fun j _ => hs.term_mono (hδ j) (h j))

/-- No single difference exceeds the gauge. -/
theorem Sound.reachUnits_le_gauge {δ : Fin d → ℝ} (hδ : ∀ j, 0 ≤ δ j) (j : Fin d) :
    s.reachUnits (δ j) ≤ s.gauge δ := by
  rw [← hs.total_term (hδ j)]
  refine hs.total_mono (hs.term_nonneg (hδ j)) ?_
  exact Finset.single_le_sum (f := fun j => s.term (δ j)) (fun j _ => hs.term_nonneg (hδ j))
    (Finset.mem_univ j)

/-- The distance of two points is the gauge of their coordinate differences. -/
theorem Sound.distance_eq (x y : Point ℝ d) :
    s.metric.distance s.p x y = s.gauge fun j => |x.get j - y.get j| := by
  unfold gauge term total contribution reachUnits
  rcases hs with h | h | ⟨h, hp, hinv⟩
  · simp [h, Metric.distance_sqEuclidean, Point.sqDist, sq]
  · simp [h, Metric.distance_manhattan]
  · simp [h, Metric.distance, Metric.powers, sumOver_eq_sum, hinv, Scalar.recip]

omit hs

/-- The norm of a query is at hand where the search needs it. -/
def Measured (s : Search ℝ n) (q : Probe ℝ n d) : Prop :=
  s.norms.isSome → q.norm = q.point.squaredNorm

/-- The distance from a query to a row, as it is searched for. -/
theorem distanceTo_eq (M : Matrix ℝ n d) (m : Metric) (p : ℝ) {q : Probe ℝ n d}
    (hq : (settings M m p).Measured q) (i : Fin n) :
    (settings M m p).distanceTo M q i = m.searched p q.point (M.get i) := by
  by_cases h : m.evaluated p = .sqEuclidean
  · have hnorms : (settings M m p).norms = some M.squaredNorms := if_pos h
    have hexpand : q.norm + M.squaredNorms.get i - Scalar.two * (M.get i).dot q.point =
        q.point.sqDist (M.get i) := by
      rw [hq (by rw [hnorms]; rfl), ← expanded_eq, crossTerm, Matrix.squaredNorms, Vector.get_map,
        Point.dot_comm]
      ring
    rw [distanceTo, hnorms]
    simp only [hexpand, Metric.searched, h, Metric.distance_sqEuclidean, scalar_zero, scalar_max]
    exact max_eq_left (Point.sqDist_nonneg _ _)
  · have hnorms : (settings M m p).norms = none := if_neg h
    rw [distanceTo, hnorms]
    exact settings_distance M m p _ _

/-- A search evaluates the gauge of the coordinate differences to a query. -/
structure Asks (s : Search ℝ n) (M : Matrix ℝ n d) (q : Probe ℝ n d) : Prop where
  sound : s.Sound
  distance : ∀ i, s.distanceTo M q i = s.gauge fun j => |q.point.get j - M.entry i j|

theorem settings_asks {M : Matrix ℝ n d} {m : Metric} {p : ℝ} (h : m.Searchable p)
    {q : Probe ℝ n d} (hq : (settings M m p).Measured q) : (settings M m p).Asks M q where
  sound := settings_sound M h
  distance i := by
    rw [distanceTo_eq M m p hq, ← settings_distance M, (settings_sound M h).distance_eq]
    rfl

/-- A row is at least as far as any of its coordinates. -/
theorem Asks.reachUnits_le {s : Search ℝ n} {M : Matrix ℝ n d} {q : Probe ℝ n d}
    (h : s.Asks M q) (i : Fin n) (j : Fin d) :
    s.reachUnits |q.point.get j - M.entry i j| ≤ s.distanceTo M q i := by
  rw [h.distance]
  exact h.sound.reachUnits_le_gauge (δ := fun j => |q.point.get j - M.entry i j|)
    (fun _ => abs_nonneg _) j

end Search

/-! ## Queries -/

namespace KdTree

theorem pointProbe_measured (s : Search ℝ n) (x : Point ℝ d) : s.Measured (pointProbe s x) :=
  fun h => if_pos h

theorem selfProbe_measured (T : KdTree ℝ n d) (m : Metric) (p : ℝ) (i : Fin n) :
    (Search.settings T.data m p).Measured (T.selfProbe (.settings T.data m p) i) := by
  intro h
  by_cases hsq : m.evaluated p = .sqEuclidean
  · have hnorms : (Search.settings T.data m p).norms = some T.data.squaredNorms := if_pos hsq
    simp [selfProbe, hnorms, Matrix.squaredNorms]
  · have hnorms : (Search.settings T.data m p).norms = none := if_neg hsq
    rw [hnorms] at h
    cases h

omit [RealFormat] in
theorem probes_points {α : Type} [Add α] [Mul α] [Scalar α] (T : KdTree α n d) (s : Search α n)
    {r : ℕ} (Q : Matrix α r d) :
    T.probes s (some (.ofMatrix Q)) = .ok (Vector.ofFn fun q : Fin r => pointProbe s (Q.get q)) := by
  have hmap : Q.map (pointProbe s) = Vector.ofFn fun q : Fin r => pointProbe s (Q.get q) :=
    Vector.ext_get fun q => by rw [Vector.get_ofFn, Vector.get_map]
  rw [probes, show (Grid.ofMatrix Q).withCols? d = some Q from Grid.shaped?_ofMatrix Q]
  exact congrArg Except.ok hmap

end KdTree

omit [RealFormat] in
theorem Grid.get_entries (g : Grid ℝ) (i : Fin g.rows) (j : Fin g.cols) :
    (g.entries.get i).get j = g.entry i j := by
  rw [entries, Matrix.ofFn, Vector.get_ofFn, Vector.get_ofFn]

omit [RealFormat] in
theorem Search.checkQuery_points {α : Type} {r : ℕ} (hr : 0 < r) (Q : Matrix α r d) :
    checkQuery d (some (.ofMatrix Q)) = .ok () :=
  if_neg fun h => h.elim hr.ne' fun hd => hd rfl

end

end Proximity
