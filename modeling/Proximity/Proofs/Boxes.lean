import Proximity.Proofs.Metrics

/-!
# Boxes and balls

Where a box lies relative to a ball around a query. The nearest and the farthest point of a box differ
from the query by `Box.near` and `Box.far` in each coordinate, and the test compares the gauges of the
two with the radius (`overlap_eq`): the way out of its loop, taken when one coordinate is too far,
never changes the answer.

1. `Box.Holds`: the points of a box; `Box.nearest` and `Box.farthest` are two of them.
2. `overlap_eq`: the test by gauges, and what it says of the points (`lt_of_outside`, `le_of_inside`).
3. `distance_nearest` and `distance_farthest`: the gauges are the distances of the two points.
4. `overlap_exact`.
-/

namespace Proximity

noncomputable section

variable [RealFormat] {n d : ℕ}

namespace Box

/-- The point lies in the box. -/
def Holds (b : Box ℝ d) (y : Point ℝ d) : Prop :=
  ∀ j, b.low.get j ≤ y.get j ∧ y.get j ≤ b.high.get j

theorem holds_extend (b : Box ℝ d) (y : Point ℝ d) : (b.extend y).Holds y := by
  intro j
  rw [extend, Vector.get_zipWith, Vector.get_zipWith]
  exact ⟨min_le_right _ _, le_max_right _ _⟩

theorem Holds.extend {b : Box ℝ d} {y : Point ℝ d} (h : b.Holds y) (z : Point ℝ d) :
    (b.extend z).Holds y := by
  intro j
  rw [Box.extend, Vector.get_zipWith, Vector.get_zipWith]
  exact ⟨(min_le_left _ _).trans (h j).1, (h j).2.trans (le_max_left _ _)⟩

/-- The box of some rows holds them, whatever the largest number is that it starts from. -/
theorem ofRows_holds (M : Matrix ℝ n d) {rows : List (Fin n)} {i : Fin n} (hi : i ∈ rows) :
    (ofRows M rows).Holds (M.get i) := by
  refine (foldl_list_invariant (fun _ => True) (fun i (b : Box ℝ d) => b.Holds (M.get i))
    (fun b i _ => ?_) rows empty trivial).2.1 i hi
  exact ⟨trivial, b.holds_extend _, fun j hj => hj.extend _⟩

/-- How far the nearest point of the box is in each coordinate. -/
def near (b : Box ℝ d) (x : Point ℝ d) (j : Fin d) : ℝ :=
  (Search.reach (x.get j) (b.low.get j) (b.high.get j)).1

/-- How far the farthest point of the box is in each coordinate. -/
def far (b : Box ℝ d) (x : Point ℝ d) (j : Fin d) : ℝ :=
  (Search.reach (x.get j) (b.low.get j) (b.high.get j)).2

end Box

namespace Search

theorem reach_nonneg (x lo hi : ℝ) : 0 ≤ (reach x lo hi).1 := by
  unfold reach
  split
  next h => exact sub_nonneg.2 h.le
  next =>
    split
    next h => exact sub_nonneg.2 h.le
    next => exact scalar_zero.ge

/-- A coordinate between the ends of an interval differs by no less than the first reach and by no
more than the second one. -/
theorem reach_bounds {x lo hi y : ℝ} (hlo : lo ≤ y) (hhi : y ≤ hi) :
    (reach x lo hi).1 ≤ |x - y| ∧ |x - y| ≤ (reach x lo hi).2 := by
  unfold reach
  split
  next h =>
    rw [abs_sub_comm, abs_of_nonneg (by linarith)]
    exact ⟨by linarith, by linarith⟩
  next =>
    split
    next h =>
      rw [abs_of_nonneg (by linarith)]
      exact ⟨by linarith, by linarith⟩
    next =>
      rw [scalar_zero, scalar_max]
      refine ⟨abs_nonneg _, abs_le.2 ⟨?_, ?_⟩⟩
      · linarith [le_max_left (hi - x) (x - lo)]
      · linarith [le_max_right (hi - x) (x - lo)]

variable {s : Search ℝ n}

theorem near_le_gauge (hs : s.Sound) {b : Box ℝ d} {y : Point ℝ d} (hy : b.Holds y)
    (x : Point ℝ d) : s.gauge (b.near x) ≤ s.gauge fun j => |x.get j - y.get j| :=
  hs.gauge_mono (fun _ => reach_nonneg _ _ _) fun j => (reach_bounds (hy j).1 (hy j).2).1

theorem gauge_le_far (hs : s.Sound) {b : Box ℝ d} {y : Point ℝ d} (hy : b.Holds y)
    (x : Point ℝ d) : s.gauge (fun j => |x.get j - y.get j|) ≤ s.gauge (b.far x) :=
  hs.gauge_mono (fun _ => abs_nonneg _) fun j => (reach_bounds (hy j).1 (hy j).2).2

/-! ## The test -/

theorem foldlM_overlapStep (s : Search ℝ n) (x : Point ℝ d) (eps : ℝ) (b : Box ℝ d)
    (dims : List (Fin d)) (acc : ℝ × ℝ) :
    dims.foldlM (s.overlapStep x eps b) acc =
      if ∀ j ∈ dims, s.reachUnits (b.near x j) ≤ eps then
        some (acc.1 + (dims.map fun j => s.term (b.near x j)).sum,
          acc.2 + (dims.map fun j => s.term (b.far x j)).sum)
      else none := by
  induction dims generalizing acc with
  | nil => simp
  | cons j dims ih =>
    rw [List.foldlM_cons]
    by_cases hj : eps < s.reachUnits (b.near x j)
    · have hstep : s.overlapStep x eps b acc j = none := if_pos hj
      rw [hstep, if_neg fun h => (h j List.mem_cons_self).not_gt hj]
      rfl
    · have hstep : s.overlapStep x eps b acc j =
          some (acc.1 + s.term (b.near x j), acc.2 + s.term (b.far x j)) := if_neg hj
      rw [hstep]
      refine (ih _).trans ?_
      simp only [List.forall_mem_cons, not_lt.1 hj, true_and, List.map_cons, List.sum_cons, add_assoc]

/-- The position of a box that is not empty: its farthest and its nearest point are compared with the
radius. -/
theorem overlap_eq (hs : s.Sound) (x : Point ℝ d) (eps : ℝ) {b : Box ℝ d} {y : Point ℝ d}
    (hy : b.Holds y) :
    s.overlap x eps b = if s.gauge (b.far x) ≤ eps then .inside
      else if s.gauge (b.near x) ≤ eps then .crossing else .outside := by
  have hsum (f : Fin d → ℝ) :
      (Scalar.zero : ℝ) + ((List.finRange d).map fun j => s.term (f j)).sum = ∑ j, s.term (f j) := by
    rw [scalar_zero, zero_add, Fin.sum_univ_def]
  rw [overlap, foldlM_overlapStep]
  by_cases hall : ∀ j ∈ List.finRange d, s.reachUnits (b.near x j) ≤ eps
  · rw [if_pos hall]
    simp only [hsum]
    rfl
  · -- one coordinate alone puts the box outside, and then the sums say so too
    rw [if_neg hall]
    push Not at hall
    obtain ⟨j, -, hj⟩ := hall
    have hnear : eps < s.gauge (b.near x) :=
      hj.trans_le (hs.reachUnits_le_gauge (fun _ => reach_nonneg _ _ _) j)
    have hfar : eps < s.gauge (b.far x) :=
      hnear.trans_le ((near_le_gauge hs hy x).trans (gauge_le_far hs hy x))
    rw [if_neg hfar.not_ge, if_neg hnear.not_ge]

theorem lt_of_outside (hs : s.Sound) {x : Point ℝ d} {eps : ℝ} {b : Box ℝ d} {y : Point ℝ d}
    (hy : b.Holds y) (h : s.overlap x eps b = .outside) :
    eps < s.gauge fun j => |x.get j - y.get j| := by
  have hnear : ¬ s.gauge (b.near x) ≤ eps := by
    intro hnear
    rw [overlap_eq hs x eps hy, if_pos hnear] at h
    split at h <;> cases h
  exact (not_le.1 hnear).trans_le (near_le_gauge hs hy x)

theorem le_of_inside (hs : s.Sound) {x : Point ℝ d} {eps : ℝ} {b : Box ℝ d} {y : Point ℝ d}
    (hy : b.Holds y) (h : s.overlap x eps b = .inside) :
    s.gauge (fun j => |x.get j - y.get j|) ≤ eps := by
  have hfar : s.gauge (b.far x) ≤ eps := by
    by_contra hfar
    rw [overlap_eq hs x eps hy, if_neg hfar] at h
    split at h <;> cases h
  exact (gauge_le_far hs hy x).trans hfar

end Search

/-! ## The nearest and the farthest point -/

namespace Box

/-- No end of the box is above the other one. -/
def Ordered (b : Box ℝ d) : Prop := ∀ j, b.low.get j ≤ b.high.get j

/-- The point has an end of the box in each coordinate. -/
def Corner (b : Box ℝ d) (y : Point ℝ d) : Prop :=
  ∀ j, y.get j = b.low.get j ∨ y.get j = b.high.get j

/-- The query moved into the box, coordinate by coordinate. -/
def nearest (b : Box ℝ d) (x : Point ℝ d) : Point ℝ d :=
  Vector.ofFn fun j => max (b.low.get j) (min (x.get j) (b.high.get j))

/-- The corner with the farther end in each coordinate. -/
def farthest (b : Box ℝ d) (x : Point ℝ d) : Point ℝ d :=
  Vector.ofFn fun j =>
    if x.get j - b.low.get j ≤ b.high.get j - x.get j then b.high.get j else b.low.get j

variable {b : Box ℝ d}

omit [RealFormat] in
theorem Corner.holds (hb : b.Ordered) {y : Point ℝ d} (hy : b.Corner y) : b.Holds y := by
  intro j
  rcases hy j with h | h
  · rw [h]
    exact ⟨le_rfl, hb j⟩
  · rw [h]
    exact ⟨hb j, le_rfl⟩

omit [RealFormat] in
theorem nearest_holds (hb : b.Ordered) (x : Point ℝ d) : b.Holds (b.nearest x) := by
  intro j
  rw [nearest, Vector.get_ofFn]
  exact ⟨le_max_left _ _, max_le (hb j) (min_le_right _ _)⟩

omit [RealFormat] in
theorem farthest_corner (b : Box ℝ d) (x : Point ℝ d) : b.Corner (b.farthest x) := by
  intro j
  rw [farthest, Vector.get_ofFn]
  split
  · exact Or.inr rfl
  · exact Or.inl rfl

end Box

namespace Search

/-- The first reach is the difference to the coordinate that is moved into the interval. -/
theorem reach_fst_eq {x lo hi : ℝ} (h : lo ≤ hi) :
    (reach x lo hi).1 = |x - max lo (min x hi)| := by
  unfold reach
  split
  next hx => rw [min_eq_left (hx.le.trans h), max_eq_left hx.le, abs_of_neg (by linarith), neg_sub]
  next hlo =>
    split
    next hx => rw [min_eq_right hx.le, max_eq_right h, abs_of_pos (by linarith)]
    next hhi =>
      rw [min_eq_left (not_lt.1 hhi), max_eq_right (not_lt.1 hlo), sub_self, abs_zero]
      exact scalar_zero

/-- The second reach is the difference to the farther end of the interval. -/
theorem reach_snd_eq {x lo hi : ℝ} (h : lo ≤ hi) :
    (reach x lo hi).2 = |x - if x - lo ≤ hi - x then hi else lo| := by
  unfold reach
  split
  next hx => rw [if_pos (by linarith), abs_of_neg (by linarith), neg_sub]
  next hlo =>
    split
    next hx => rw [if_neg (by linarith), abs_of_pos (by linarith)]
    next hhi =>
      rw [scalar_max]
      split
      next hfar => rw [max_eq_left hfar, abs_of_nonpos (by linarith), neg_sub]
      next hfar => rw [max_eq_right (not_le.1 hfar).le, abs_of_nonneg (by linarith)]

variable {s : Search ℝ n} {b : Box ℝ d}

theorem distance_nearest (hs : s.Sound) (hb : b.Ordered) (x : Point ℝ d) :
    s.metric.distance s.p x (b.nearest x) = s.gauge (b.near x) := by
  rw [hs.distance_eq]
  congr 1
  funext j
  rw [Box.nearest, Vector.get_ofFn, Box.near, reach_fst_eq (hb j)]

theorem distance_farthest (hs : s.Sound) (hb : b.Ordered) (x : Point ℝ d) :
    s.metric.distance s.p x (b.farthest x) = s.gauge (b.far x) := by
  rw [hs.distance_eq]
  congr 1
  funext j
  rw [Box.farthest, Vector.get_ofFn, Box.far, reach_snd_eq (hb j)]

/-- The test without the way out of its loop: both sums run over all coordinates before they are
compared with the radius. -/
def overlapThrough (s : Search ℝ n) (x : Point ℝ d) (eps : ℝ) (b : Box ℝ d) : Overlap :=
  let sums := (List.finRange d).foldl
    (fun acc j => (acc.1 + s.term (b.near x j), acc.2 + s.term (b.far x j)))
    ((Scalar.zero : ℝ), (Scalar.zero : ℝ))
  if s.total sums.2 ≤ eps then .inside else if s.total sums.1 ≤ eps then .crossing else .outside

theorem overlapThrough_eq (s : Search ℝ n) (x : Point ℝ d) (eps : ℝ) (b : Box ℝ d) :
    s.overlapThrough x eps b = if s.gauge (b.far x) ≤ eps then .inside
      else if s.gauge (b.near x) ≤ eps then .crossing else .outside := by
  have fold (dims : List (Fin d)) (acc : ℝ × ℝ) :
      dims.foldl (fun acc j => (acc.1 + s.term (b.near x j), acc.2 + s.term (b.far x j))) acc =
        (acc.1 + (dims.map fun j => s.term (b.near x j)).sum,
          acc.2 + (dims.map fun j => s.term (b.far x j)).sum) := by
    induction dims generalizing acc with
    | nil => simp
    | cons j dims ih => simp only [List.foldl_cons, ih, List.map_cons, List.sum_cons, add_assoc]
  rw [overlapThrough]
  simp only [fold, scalar_zero, zero_add, ← Fin.sum_univ_def]
  rfl

/-- **The test is exact.** A box is outside of a ball exactly if its nearest point is, and inside exactly
if its farthest corner is; all other points of the box then are where the answer says. The way out of
the loop changes no answer. -/
theorem overlap_exact (hs : s.Sound) (hb : b.Ordered) (x : Point ℝ d) (eps : ℝ) :
    let dist := s.metric.distance s.p x
    (b.Holds (b.nearest x) ∧ ∀ y, b.Holds y → dist (b.nearest x) ≤ dist y) ∧
    (b.Holds (b.farthest x) ∧ b.Corner (b.farthest x) ∧
      ∀ y, b.Holds y → dist y ≤ dist (b.farthest x)) ∧
    (s.overlap x eps b = .outside ↔ eps < dist (b.nearest x)) ∧
    (s.overlap x eps b = .inside ↔ dist (b.farthest x) ≤ eps) ∧
    (s.overlap x eps b = .outside → ∀ y, b.Holds y → eps < dist y) ∧
    (s.overlap x eps b = .inside → ∀ y, b.Holds y → dist y ≤ eps) ∧
    s.overlap x eps b = s.overlapThrough x eps b := by
  intro dist
  have hnear : dist (b.nearest x) = s.gauge (b.near x) := distance_nearest hs hb x
  have hfar : dist (b.farthest x) = s.gauge (b.far x) := distance_farthest hs hb x
  have hdist (y : Point ℝ d) : dist y = s.gauge fun j => |x.get j - y.get j| := hs.distance_eq x y
  have hholds := b.nearest_holds hb x
  have hcorner := b.farthest_corner x
  have hle (y : Point ℝ d) (hy : b.Holds y) :
      dist (b.nearest x) ≤ dist y ∧ dist y ≤ dist (b.farthest x) := by
    rw [hnear, hdist, hfar]
    exact ⟨near_le_gauge hs hy x, gauge_le_far hs hy x⟩
  have hall : dist (b.nearest x) ≤ dist (b.farthest x) := (hle _ hholds).2
  have heq := overlap_eq hs x eps hholds
  rw [← hnear, ← hfar] at heq
  have houtside : s.overlap x eps b = .outside ↔ eps < dist (b.nearest x) := by
    rw [heq]
    by_cases hin : dist (b.farthest x) ≤ eps
    · rw [if_pos hin]
      exact iff_of_false Overlap.noConfusion (hall.trans hin).not_gt
    · rw [if_neg hin, ← not_le]
      by_cases hcross : dist (b.nearest x) ≤ eps
      · rw [if_pos hcross]
        exact iff_of_false Overlap.noConfusion (not_not.2 hcross)
      · rw [if_neg hcross]
        exact iff_of_true rfl hcross
  have hinside : s.overlap x eps b = .inside ↔ dist (b.farthest x) ≤ eps := by
    rw [heq]
    by_cases hin : dist (b.farthest x) ≤ eps
    · rw [if_pos hin]
      exact iff_of_true rfl hin
    · rw [if_neg hin]
      refine iff_of_false ?_ hin
      split <;> exact Overlap.noConfusion
  refine ⟨⟨hholds, fun y hy => (hle y hy).1⟩,
    ⟨hcorner.holds hb, hcorner, fun y hy => (hle y hy).2⟩, houtside, hinside,
    fun h y hy => (houtside.1 h).trans_le (hle y hy).1,
    fun h y hy => (hle y hy).2.trans (hinside.1 h), ?_⟩
  rw [heq, overlapThrough_eq, hnear, hfar]

omit [RealFormat] in
/-- The unit square and a query two to the right of it, in the Minkowski distance of order three. -/
theorem overlap_exact_unit_square :
    letI := RealFormat.plain
    let s := settings (#v[#v[0, 0]] : Matrix ℝ 1 2) .minkowski 3
    let b : Box ℝ 2 := ⟨#v[0, 0], #v[1, 1]⟩
    let x : Point ℝ 2 := #v[3, 1 / 2]
    (s.Sound ∧ b.Ordered) ∧ s.overlap x 1 b = .outside ∧
      ∀ y, b.Holds y → 1 < s.metric.distance s.p x y := by
  let _ := RealFormat.plain
  intro s b x
  have hs : s.Sound := settings_sound _ ⟨by decide, fun _ => by norm_num⟩
  have hb : b.Ordered := by
    intro j
    fin_cases j <;> exact zero_le_one
  obtain ⟨-, -, houtside, -, hbeyond, -, -⟩ := overlap_exact hs hb x 1
  have hunits : s.reachUnits (b.near x 0) = 2 := by
    have hmetric : s.metric ≠ .sqEuclidean := by
      simp [s, settings, Metric.evaluated]
    rw [reachUnits, if_neg hmetric, Box.near, reach_fst_eq (hb 0)]
    show |(3 : ℝ) - max 0 (min 3 1)| = 2
    norm_num
  have hfar : 1 < s.metric.distance s.p x (b.nearest x) := by
    rw [distance_nearest hs hb]
    have := hs.reachUnits_le_gauge (δ := b.near x) (fun _ => reach_nonneg _ _ _) 0
    linarith
  have hout := houtside.2 hfar
  exact ⟨⟨hs, hb⟩, hout, hbeyond hout⟩

end Search

end

end Proximity
