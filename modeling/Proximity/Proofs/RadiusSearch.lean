import Proximity.Proofs.ClosePairs
import Proximity.Proofs.Trees

/-!
# Rows within a radius

A walk through a tree finds the rows within a radius, each of them once. Where a box decides, it is
right for all rows below it; a half that a split puts beyond the radius has none of them. The walk and
the exhaustive search find the same rows.

1. `within_spec`: the walk from any node, by induction on the part of the tree that it covers.
2. `radiusNeighbours_spec`: all queries of a search, and `Grid.radiusNeighbours_spec` for all pairs.
3. `radius_searches_exact`.
-/

namespace Proximity

noncomputable section

variable [RealFormat] {n d r : ℕ}

/-! ## The walk -/

/-- The row is asked for, and lies within the radius. -/
def Search.hits (s : Search ℝ n) (M : Matrix ℝ n d) (q : Probe ℝ n d) (eps : ℝ) (i : Fin n) : Bool :=
  q.admits i && s.distanceTo M q i ≤ eps

theorem Search.hits_iff {s : Search ℝ n} {M : Matrix ℝ n d} {q : Probe ℝ n d} {eps : ℝ} {i : Fin n} :
    s.hits M q eps i = true ↔ q.self ≠ some i ∧ s.distanceTo M q i ≤ eps := by
  simp [hits, Probe.admits]

namespace KdTree

section Walk

variable {T : KdTree ℝ n d} {s : Search ℝ n} {q : Probe ℝ n d} {eps planeEps : ℝ}

theorem filter_hits_outside (h : s.Asks T.data q) {b : Box ℝ d} {rows : List (Fin n)}
    (hbox : ∀ i ∈ rows, b.Holds (T.data.get i)) (hout : s.overlap q.point eps b = .outside) :
    rows.filter (s.hits T.data q eps) = [] := by
  refine List.filter_eq_nil_iff.2 fun i hi hhit => ?_
  have hfar := Search.lt_of_outside h.sound (hbox i hi) hout
  have hnear := (Search.hits_iff.1 hhit).2
  rw [h.distance] at hnear
  exact hfar.not_ge hnear

theorem filter_hits_inside (h : s.Asks T.data q) {b : Box ℝ d} {rows : List (Fin n)}
    (hbox : ∀ i ∈ rows, b.Holds (T.data.get i)) (hin : s.overlap q.point eps b = .inside) :
    rows.filter (s.hits T.data q eps) = rows.filter q.admits := by
  refine List.filter_congr fun i hi => ?_
  have hnear := Search.le_of_inside h.sound (hbox i hi) hin
  have hle : s.distanceTo T.data q i ≤ eps := by rw [h.distance]; exact hnear
  rw [Search.hits, decide_eq_true hle, Bool.and_true]

/-- Rows that a split puts farther from the query than the radius are not within it. -/
theorem filter_hits_beyond (h : s.Asks T.data q) (hplane : 0 ≤ planeEps)
    (hunits : s.reachUnits planeEps = eps) {j : Fin d} {rows : List (Fin n)}
    (hbeyond : ∀ i ∈ rows, planeEps < |q.point.get j - T.data.entry i j|) :
    rows.filter (s.hits T.data q eps) = [] := by
  refine List.filter_eq_nil_iff.2 fun i hi hhit => ?_
  have hfar : eps < s.distanceTo T.data q i :=
    calc eps = s.reachUnits planeEps := hunits.symm
      _ < s.reachUnits |q.point.get j - T.data.entry i j| := s.reachUnits_lt hplane (hbeyond i hi)
      _ ≤ s.distanceTo T.data q i := h.reachUnits_le i j
  exact hfar.not_ge (Search.hits_iff.1 hhit).2

omit [RealFormat] in
theorem lt_abs_of_sub_gt {x y c : ℝ} (hgap : planeEps < x - c) (hy : y ≤ c) : planeEps < |x - y| :=
  (by linarith : planeEps < x - y).trans_le (le_abs_self _)

omit [RealFormat] in
theorem lt_abs_of_sub_lt {x y c : ℝ} (hgap : x - c < -planeEps) (hy : c ≤ y) : planeEps < |x - y| :=
  (by linarith : planeEps < -(x - y)).trans_le (neg_le_abs _)

/-- Where a box decides, nothing below it is looked at. -/
theorem within_decided (h : s.Asks T.data q) {id : ℕ} {v : Node ℝ n d} {rows : List (Fin n)}
    (lookup : T.nodes[id]? = some v) (range : T.rowsOf v = rows)
    (box : ∀ i ∈ rows, v.box.Holds (T.data.get i))
    (hover : s.overlap q.point eps v.box ≠ .crossing) (fuel : ℕ) :
    T.within s q eps planeEps (fuel + 1) id = .ok (rows.filter (s.hits T.data q eps)) := by
  rw [within, lookup]
  dsimp only
  cases hover' : s.overlap q.point eps v.box with
  | outside => rw [filter_hits_outside h box hover']
  | inside => rw [range, filter_hits_inside h box hover']
  | crossing => exact absurd hover' hover

/-- At a split whose box does not decide, the point is looked at and each half that is near enough is
walked. -/
theorem within_split {id : ℕ} {v : Node ℝ n d} {point : Fin n} {left right : ℕ}
    (lookup : T.nodes[id]? = some v) (split : v.split = .inner point left right)
    (hover : s.overlap q.point eps v.box = .crossing) (fuel : ℕ) :
    T.within s q eps planeEps (fuel + 1) id =
      let diff := q.point.get v.dim - T.data.entry point v.dim
      (if diff ≤ planeEps then T.within s q eps planeEps fuel left else .ok []).bind fun below =>
        (if -planeEps ≤ diff then T.within s q eps planeEps fuel right else .ok []).bind fun above =>
          .ok ([point].filter (s.hits T.data q eps) ++ below ++ above) := by
  have hhere : [point].filter (s.hits T.data q eps) =
      if q.admits point && s.distanceTo T.data q point ≤ eps then [point] else [] := by
    rw [List.filter_singleton, Bool.cond_eq_ite]
    rfl
  rw [within, lookup, hhere]
  dsimp only
  rw [hover]
  dsimp only
  rw [split]
  dsimp only
  by_cases hbelow : q.point.get v.dim - T.data.entry point v.dim ≤ planeEps
  · rw [if_pos hbelow, if_pos hbelow]
    by_cases habove : -planeEps ≤ q.point.get v.dim - T.data.entry point v.dim
    · simp only [if_pos habove]
      rfl
    · simp only [if_neg habove]
      rfl
  · rw [if_neg hbelow, if_neg hbelow]
    by_cases habove : -planeEps ≤ q.point.get v.dim - T.data.entry point v.dim
    · simp only [if_pos habove]
      rfl
    · simp only [if_neg habove]
      rfl

/-- The walk finds the rows within the radius, each of them once. -/
theorem within_spec (h : s.Asks T.data q) (hplane : 0 ≤ planeEps)
    (hunits : s.reachUnits planeEps = eps) {size id : ℕ} {rows : List (Fin n)}
    (hcovers : T.Covers size id rows) (fuel : ℕ) (hfuel : size ≤ fuel) :
    ∃ found, T.within s q eps planeEps fuel id = .ok found ∧
      found.Perm (rows.filter (s.hits T.data q eps)) := by
  induction hcovers generalizing fuel with
  | @leaf id v rows lookup split range box nonempty =>
    obtain ⟨fuel, rfl⟩ := Nat.exists_eq_succ_of_ne_zero (Nat.ne_zero_of_lt hfuel)
    by_cases hover : s.overlap q.point eps v.box = .crossing
    · refine ⟨_, ?_, List.Perm.refl _⟩
      rw [within, lookup]
      dsimp only
      rw [hover]
      dsimp only
      rw [split, range]
      rfl
    · exact ⟨_, within_decided h lookup range box hover fuel, List.Perm.refl _⟩
  | @inner id left right sizeLeft sizeRight v point before after lookup split range box below above
      hleft hright ihleft ihright =>
    obtain ⟨fuel, rfl⟩ := Nat.exists_eq_succ_of_ne_zero (Nat.ne_zero_of_lt (by omega : 0 < fuel))
    by_cases hover : s.overlap q.point eps v.box = .crossing
    · let diff := q.point.get v.dim - T.data.entry point v.dim
      obtain ⟨foundBelow, hbelow, hpermBelow⟩ : ∃ found,
          (if diff ≤ planeEps then T.within s q eps planeEps fuel left else .ok []) = .ok found ∧
            found.Perm (before.filter (s.hits T.data q eps)) := by
        by_cases hnear : diff ≤ planeEps
        · rw [if_pos hnear]
          exact ihleft fuel (by omega)
        · rw [if_neg hnear, filter_hits_beyond h hplane hunits fun i hi =>
            lt_abs_of_sub_gt (not_le.1 hnear) (below i hi)]
          exact ⟨[], rfl, List.Perm.refl _⟩
      obtain ⟨foundAbove, habove, hpermAbove⟩ : ∃ found,
          (if -planeEps ≤ diff then T.within s q eps planeEps fuel right else .ok []) = .ok found ∧
            found.Perm (after.filter (s.hits T.data q eps)) := by
        by_cases hnear : -planeEps ≤ diff
        · rw [if_pos hnear]
          exact ihright fuel (by omega)
        · rw [if_neg hnear, filter_hits_beyond h hplane hunits fun i hi =>
            lt_abs_of_sub_lt (not_le.1 hnear) (above i hi)]
          exact ⟨[], rfl, List.Perm.refl _⟩
      refine ⟨[point].filter (s.hits T.data q eps) ++ foundBelow ++ foundAbove, ?_, ?_⟩
      · rw [within_split lookup split hover]
        dsimp only
        rw [hbelow, habove]
        rfl
      · rw [List.append_cons, List.filter_append, List.filter_append]
        exact (List.perm_append_comm.trans (hpermBelow.append_right _)).append hpermAbove
    · exact ⟨_, within_decided h lookup range box hover fuel, List.Perm.refl _⟩

end Walk

/-! ## The searches -/

/-- Every query gets the rows within the radius, each of them once. -/
theorem radiusNeighbours_spec {T : KdTree ℝ n d} {m : Metric} {p : ℝ} (hm : m.Searchable p)
    {eps : ℝ} (heps : 0 ≤ eps) {rows : List (Fin n)} (hrows : rows.Perm (List.finRange n))
    (hcovers : T.Covers T.nodes.size 0 rows) {query : Option (Grid ℝ)}
    (hquery : Search.checkQuery d query = .ok ())
    {probe : Fin (queryCount n query) → Probe ℝ n d}
    (hprobes : T.probes (.settings T.data m p) query = .ok (Vector.ofFn probe))
    (hmeasured : ∀ q, (Search.settings T.data m p).Measured (probe q)) :
    ∃ found, T.radiusNeighbours query eps m p = .ok found ∧ ∀ q, (found.get q).Nodup ∧
      ∀ i, i ∈ found.get q ↔ (probe q).self ≠ some i ∧
        m.distance p (probe q).point (T.data.get i) ≤ eps := by
  let s := Search.settings T.data m p
  let radius := m.searchRadius p eps
  let planeEps := if s.metric = .sqEuclidean then Scalar.sqrt radius else radius
  have hradius : 0 ≤ radius := m.searchRadius_nonneg p heps
  have hplane : 0 ≤ planeEps := by
    unfold planeEps
    split
    · exact Real.sqrt_nonneg _
    · exact hradius
  have hunits : s.reachUnits planeEps = radius := by
    unfold planeEps Search.reachUnits
    split
    · exact Real.mul_self_sqrt hradius
    · rfl
  have hwalk (q : Fin (queryCount n query)) :=
    within_spec (Search.settings_asks hm (hmeasured q)) hplane hunits hcovers T.nodes.size le_rfl
  obtain ⟨found, hfound, hresult⟩ := mapM_ok (fun q => T.within s q radius planeEps T.nodes.size 0)
    (Vector.ofFn probe) fun q => by
      rw [Vector.get_ofFn]
      exact (hwalk q).imp fun _ h => h.1
  refine ⟨found, ?_, fun q => ?_⟩
  · rw [radiusNeighbours, Search.plan, Search.checkMetric_ok hm, hquery, m.internalRadius_eq p heps]
    show (T.probes s query >>= fun probes => probes.mapM fun q =>
      T.within s q radius planeEps T.nodes.size 0) = .ok found
    rw [hprobes]
    exact hfound
  · obtain ⟨l, hl, hperm⟩ := hwalk q
    have hread := hresult q
    rw [Vector.get_ofFn] at hread
    obtain rfl : l = found.get q := Except.ok.inj (hl.symm.trans hread)
    have hnodup : ((List.finRange n).filter (s.hits T.data (probe q) radius)).Nodup :=
      (List.nodup_finRange n).filter _
    have hall := hperm.trans (hrows.filter _)
    refine ⟨hall.nodup_iff.2 hnodup, fun i => ?_⟩
    rw [hall.mem_iff, List.mem_filter, Search.hits_iff,
      Search.distanceTo_eq T.data m p (hmeasured q), m.le_searchRadius_iff p heps]
    simp

variable {T : KdTree ℝ n d} {m : Metric} {p : ℝ} (hm : m.Searchable p) {eps : ℝ} (heps : 0 ≤ eps)
  {rows : List (Fin n)} (hrows : rows.Perm (List.finRange n))
  (hcovers : T.Covers T.nodes.size 0 rows)

include hm heps hrows hcovers

theorem radiusNeighbours_points (hr : 0 < r) (Q : Matrix ℝ r d) :
    ∃ found : Vector (List (Fin n)) r, T.radiusNeighbours (some (.ofMatrix Q)) eps m p = .ok found ∧
      ∀ q, (found.get q).Nodup ∧
        ∀ i, i ∈ found.get q ↔ m.distance p (Q.get q) (T.data.get i) ≤ eps := by
  obtain ⟨found, hfound, hspec⟩ := radiusNeighbours_spec hm heps hrows hcovers
    (Search.checkQuery_points hr Q) (T.probes_points _ Q) fun _ => pointProbe_measured _ _
  refine ⟨found, hfound, fun q => ⟨(hspec q).1, fun i => ((hspec q).2 i).trans ?_⟩⟩
  exact and_iff_right (Option.some_ne_none i).symm

theorem radiusNeighbours_self :
    ∃ found : Vector (List (Fin n)) n, T.radiusNeighbours none eps m p = .ok found ∧
      ∀ q, (found.get q).Nodup ∧
        ∀ i, i ∈ found.get q ↔ i ≠ q ∧ m.distance p (T.data.get q) (T.data.get i) ≤ eps := by
  have hquery : Search.checkQuery d (none : Option (Grid ℝ)) = .ok () := rfl
  obtain ⟨found, hfound, hspec⟩ := radiusNeighbours_spec hm heps hrows hcovers hquery rfl
    (selfProbe_measured T m p)
  refine ⟨found, hfound, fun q => ⟨(hspec q).1, fun i => ((hspec q).2 i).trans ?_⟩⟩
  exact and_congr_left' (by simp [selfProbe, eq_comm])

end KdTree

/-- The exhaustive search finds the other rows within the radius of each row. -/
theorem Grid.radiusNeighbours_spec (g : Grid ℝ) (hr : 0 < g.rows) (hc : 0 < g.cols) {m : Metric}
    {p : ℝ} (hm : m = .minkowski → 0 < p) {eps : ℝ} (heps : 0 ≤ eps) :
    ∃ found, g.radiusNeighbours eps m p = .ok found ∧ ∀ v, (found.get v).Pairwise (· < ·) ∧
      ∀ i, i ∈ found.get v ↔ i ≠ v ∧ m.distance p (g.entries.get v) (g.entries.get i) ≤ eps := by
  let B := RowBlocks.ofRows g.rows radiusTile
  let near (i j : Fin g.rows) : Bool :=
    searchDistance m p g.entries g.entries.squaredNorms i j ≤ m.searchRadius p eps
  have hnear (i j : Fin g.rows) :
      near i j = true ↔ m.distance p (g.entries.get i) (g.entries.get j) ≤ eps := by
    rw [decide_eq_true_iff, m.searchDistance_eq, m.le_searchRadius_iff p heps]
  refine ⟨neighbourLists (B.closePairs near [B.upperTiles]), ?_, fun v => ?_⟩
  · have hshape : ¬ (g.rows = 0 ∨ g.cols = 0) := by omega
    rw [radiusNeighbours, Metric.validate_eq_ok hm, m.internalRadius_eq p heps, if_neg hshape]
    rfl
  · have hB := RowBlocks.rows_le_count_mul_size g.rows radiusTile
    obtain ⟨hascending, hmem⟩ := neighbours_spec hB near List.flatten_singleton v
    refine ⟨hascending, fun i => (hmem i).trans ?_⟩
    change i < v ∧ near i v = true ∨ v < i ∧ near v i = true ↔ _
    rw [hnear, hnear, m.distance_comm p (g.entries.get i), ← or_and_right, lt_or_lt_iff_ne]

/-- Radius searches are exact: a tree built by any selection finds, for each query, the rows within the
radius and no others, and so do the exhaustive search and, if there is room for its tree, the one that
builds a tree for the occasion. -/
theorem radius_searches_exact [Machine] (g : Grid ℝ) (hr : 0 < g.rows) (hc : 0 < g.cols)
    {S : Selection (Fin g.rows) ℝ} (hS : S.Partitions) {leafSize : ℕ} (hleaf : 0 < leafSize)
    (hword : 2 * leafSize < UInt64.size) {m : Metric} {p : ℝ} (hm : m.Searchable p) {eps : ℝ}
    (heps : 0 ≤ eps) :
    (∃ T, KdTree.buildWith S g.entries leafSize = .ok T ∧
      (∀ (r : ℕ) (Q : Matrix ℝ r g.cols), 0 < r → ∃ found : Vector (List (Fin g.rows)) r,
        T.radiusNeighbours (some (.ofMatrix Q)) eps m p = .ok found ∧
          ∀ q, (found.get q).Nodup ∧
            ∀ i, i ∈ found.get q ↔ m.distance p (Q.get q) (g.entries.get i) ≤ eps) ∧
      ∃ found : Vector (List (Fin g.rows)) g.rows, T.radiusNeighbours none eps m p = .ok found ∧
        ∀ q, (found.get q).Nodup ∧ ∀ i, i ∈ found.get q ↔
          i ≠ q ∧ m.distance p (g.entries.get q) (g.entries.get i) ≤ eps) ∧
    ∃ fast slow, g.treeRadiusNeighbours eps m p leafSize =
        (Outcome.ofChecked (Memory.reserve Memory.indexBytes g.rows)).map (fun _ => fast) ∧
      g.radiusNeighbours eps m p = .ok slow ∧ ∀ q, (fast.get q).Perm (slow.get q) ∧
        ∀ i, i ∈ fast.get q ↔ i ≠ q ∧ m.distance p (g.entries.get q) (g.entries.get i) ≤ eps := by
  have tree {S : Selection (Fin g.rows) ℝ} (hS : S.Partitions) :=
    KdTree.buildWith_covers hS hr hc g.entries hleaf hword
  constructor
  · obtain ⟨T, hT, hdata, rows, hrows, hcovers⟩ := tree hS
    refine ⟨T, hT, ?_⟩
    rw [← hdata]
    exact ⟨fun r Q hQ => KdTree.radiusNeighbours_points hm heps hrows hcovers hQ Q,
      KdTree.radiusNeighbours_self hm heps hrows hcovers⟩
  · obtain ⟨T, hT, hdata, rows, hrows, hcovers⟩ := tree (Selection.bySorting_partitions _)
    obtain ⟨fast, hfast, hspec⟩ := KdTree.radiusNeighbours_self hm heps hrows hcovers
    obtain ⟨slow, hslow, hspec'⟩ := g.radiusNeighbours_spec hr hc hm.pos heps
    rw [hdata] at hspec
    refine ⟨fast, slow, ?_, hslow, fun q => ⟨?_, (hspec q).2⟩⟩
    · have hshape : ¬ (g.rows = 0 ∨ g.cols = 0) := by omega
      rw [Grid.treeRadiusNeighbours, KdTree.ofGrid, if_neg hshape, KdTree.build_eq hT]
      cases Memory.reserve Memory.indexBytes g.rows with
      | error x => rfl
      | ok _ => exact hfast
    · have hslowNodup : (slow.get q).Nodup := (hspec' q).1.imp fun h => h.ne
      refine (List.perm_ext_iff_of_nodup (hspec q).1 hslowNodup).2 fun i => ?_
      exact ((hspec q).2 i).trans ((hspec' q).2 i).symm

omit [RealFormat] in
/-- Three rows in a tree of single leaves: a neighbour at the radius is found, one beyond it is not. -/
theorem radius_searches_exact_three_rows :
    letI := RealFormat.plain
    letI := Machine.standard
    let g : Grid ℝ := ⟨3, 1, #v[0, 1, 10]⟩
    ((Selection.bySorting (Fin 3) ℝ).Partitions ∧ Metric.manhattan.Searchable 1 ∧
      2 * 1 < UInt64.size) ∧
    ∃ fast slow, g.treeRadiusNeighbours 1 .manhattan 1 1 = .ok fast ∧
      g.radiusNeighbours 1 .manhattan 1 = .ok slow ∧ (fast.get 0).Perm (slow.get 0) ∧
        (1 : Fin 3) ∈ fast.get 0 ∧ (2 : Fin 3) ∉ fast.get 0 := by
  let _ := RealFormat.plain
  let _ := Machine.standard
  intro g
  have hS := Selection.bySorting_partitions (Fin 3)
  have hm : Metric.manhattan.Searchable 1 := ⟨Metric.noConfusion, fun h => nomatch h⟩
  have hword : 2 * 1 < UInt64.size := by decide
  refine ⟨⟨hS, hm, hword⟩, ?_⟩
  obtain ⟨-, fast, slow, hfast, hslow, hspec⟩ := radius_searches_exact g (by decide) (by decide) hS
    Nat.one_pos hword hm zero_le_one
  have hdist (i : Fin 3) (x : ℝ) (hx : g.entry i 0 = x) :
      Metric.manhattan.distance 1 (g.entries.get 0) (g.entries.get i) = |0 - x| := by
    rw [Metric.distance_manhattan]
    refine (Fin.sum_univ_one _).trans ?_
    rw [g.get_entries, g.get_entries, hx]
    rfl
  refine ⟨fast, slow, hfast, hslow, (hspec 0).1, ((hspec 0).2 1).2 ⟨by decide, ?_⟩, fun h => ?_⟩
  · rw [hdist 1 1 rfl]
    norm_num
  · have := (((hspec 0).2 2).1 h).2
    rw [hdist 2 10 rfl] at this
    norm_num at this

end

end Proximity
