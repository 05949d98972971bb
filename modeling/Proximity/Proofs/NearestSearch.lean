import Proximity.Proofs.BoundedHeap
import Proximity.Proofs.NearestTables
import Proximity.Proofs.Trees
import Proximity.Proofs.Walks

/-!
# Nearest rows

A walk through a tree leaves its heap as if all rows below had been offered to it. Rows are left out
only once the heap is full, where a box or a split puts them no nearer than its farthest entry: this
holds for the heap as it is when the choice is made, and the heap only becomes nearer.

1. `Takes`: what a part of a walk does to the heap. `Takes.trans` composes two parts, and
   `takes_outside` and `takes_beyond` are the parts that are left out.
2. `nearestInto_spec`: the walk from any node, by induction on the part of the tree that it covers;
   `nearestInto_smallest` for the walk from the root.
3. `nearest_searches_exact`.
-/

namespace Proximity

noncomputable section

variable [RealFormat] {n d r k : ℕ}

namespace Metric

/-- No distance from a point to a row, and no square of a coordinate difference, exceeds the largest
number. -/
structure InRange (m : Metric) (p : ℝ) (x : Point ℝ d) (M : Matrix ℝ n d) : Prop where
  distance : ∀ i, m.distance p x (M.get i) ≤ Scalar.largest
  square : ∀ i j, (x.get j - M.entry i j) ^ 2 ≤ Scalar.largest

theorem InRange.reachUnits_le {m : Metric} {p : ℝ} (hm : m.Searchable p) {x : Point ℝ d}
    {M : Matrix ℝ n d} (h : m.InRange p x M) (i : Fin n) (j : Fin d) :
    (Search.settings M m p).reachUnits |x.get j - M.entry i j| ≤ Scalar.largest := by
  by_cases hsq : m.evaluated p = .sqEuclidean
  · have hmetric : (Search.settings M m p).metric = .sqEuclidean := hsq
    rw [Search.reachUnits, if_pos hmetric, abs_mul_abs_self, ← sq]
    exact h.square i j
  · have hsound := Search.settings_sound M hm
    have hunits : m.viaSquares p = false := by simp [Metric.viaSquares, hsq]
    calc (Search.settings M m p).reachUnits |x.get j - M.entry i j|
        ≤ (Search.settings M m p).gauge fun j => |x.get j - (M.get i).get j| :=
          hsound.reachUnits_le_gauge (δ := fun j => |x.get j - (M.get i).get j|)
            (fun _ => abs_nonneg _) j
      _ = m.searched p x (M.get i) := by rw [← hsound.distance_eq, Search.settings_distance]
      _ = m.distance p x (M.get i) := by
          rw [← m.externalDistance_eq, Metric.externalDistance, hunits, if_neg Bool.false_ne_true]
      _ ≤ Scalar.largest := h.distance i

end Metric

/-! ## The walk -/

namespace KdTree

section Walk

/-- The rows that a query admits, with their distances in the units of the search. -/
def offers (T : KdTree ℝ n d) (s : Search ℝ n) (q : Probe ℝ n d) (rows : List (Fin n)) :
    List (Fin n × ℝ) :=
  (rows.filter q.admits).map fun i => (i, s.distanceTo T.data q i)

/-- The heap went through some rows: whatever it kept the smallest entries of before, it keeps the
smallest of those and of the rows. -/
structure Takes (T : KdTree ℝ n d) (s : Search ℝ n) (q : Probe ℝ n d) (rows : List (Fin n))
    (heap heap' : BoundedHeap (Fin n) ℝ) : Prop where
  capacity : heap'.capacity = heap.capacity
  keeps : ∀ seen, heap.Keeps seen → heap'.Keeps (T.offers s q rows ++ seen)

variable {T : KdTree ℝ n d} {s : Search ℝ n} {q : Probe ℝ n d} {rows rows' : List (Fin n)}
  {heap heap' heap'' : BoundedHeap (Fin n) ℝ}

theorem Takes.perm (h : T.Takes s q rows heap heap') (hp : rows.Perm rows') :
    T.Takes s q rows' heap heap' where
  capacity := h.capacity
  keeps seen hk := (h.keeps seen hk).perm (((hp.filter _).map _).append_right seen)

theorem Takes.trans (h : T.Takes s q rows heap heap') (h' : T.Takes s q rows' heap' heap'') :
    T.Takes s q (rows ++ rows') heap heap'' where
  capacity := h'.capacity.trans h.capacity
  keeps seen hk := by
    refine (h'.keeps _ (h.keeps seen hk)).perm ?_
    rw [offers, offers, offers, List.filter_append, List.map_append, List.append_assoc]
    exact List.perm_append_comm_assoc _ _ _

theorem takes_nil (heap : BoundedHeap (Fin n) ℝ) : T.Takes s q [] heap heap :=
  ⟨rfl, fun _ hk => hk⟩

theorem takes_offer (heap : BoundedHeap (Fin n) ℝ) (i : Fin n) :
    T.Takes s q [i] heap (T.offer s q heap i) := by
  unfold offer
  by_cases hi : q.admits i = true
  · rw [if_pos hi]
    refine ⟨heap.insert_capacity i _, fun seen hk => ?_⟩
    rw [offers, List.filter_cons_of_pos hi]
    exact hk.insert i _
  · rw [if_neg hi]
    refine ⟨rfl, fun seen hk => ?_⟩
    rw [offers, List.filter_cons_of_neg hi]
    exact hk

theorem takes_foldl (rows : List (Fin n)) (heap : BoundedHeap (Fin n) ℝ) :
    T.Takes s q rows heap (rows.foldl (T.offer s q) heap) := by
  induction rows generalizing heap with
  | nil => exact takes_nil heap
  | cons i rows ih => exact (takes_offer heap i).trans (ih _)

/-! ### Rows that are left out -/

/-- Rows that are no nearer than the entries of a full heap make no difference to it. -/
theorem takes_skip (hfar : ∀ seen, heap.Keeps seen → heap.isFull = true ∧
    ∀ i ∈ rows, ∀ x ∈ heap.entries.toList, x.2 ≤ s.distanceTo T.data q i) :
    T.Takes s q rows heap heap := by
  refine ⟨rfl, fun seen hk => ?_⟩
  obtain ⟨hfull, hle⟩ := hfar seen hk
  apply hk.skip_all hfull
  intro y hy x hx
  obtain ⟨i, hi, rfl⟩ := List.mem_map.1 hy
  exact hle i (List.mem_of_mem_filter hi) x hx

theorem takes_outside (h : s.Asks T.data q) {b : Box ℝ d}
    (hbox : ∀ i ∈ rows, b.Holds (T.data.get i)) (hfull : heap.isFull = true)
    (hout : s.overlap q.point (heap.worst.getD Scalar.largest) b = .outside) :
    T.Takes s q rows heap heap := by
  refine takes_skip fun seen hk => ⟨hfull, fun i hi x hx => ?_⟩
  rw [h.distance]
  exact (hk.le_worst hfull hx).trans (Search.lt_of_outside h.sound (hbox i hi) hout).le

/-- A heap whose bound is nearer than a split is full, and the rows beyond the split are farther than
its entries. -/
theorem takes_beyond (h : s.Asks T.data q) {gap : ℝ} (hgap : 0 ≤ gap) {j : Fin d}
    (hbeyond : ∀ i ∈ rows, gap ≤ |q.point.get j - T.data.entry i j|)
    (hlargest : s.reachUnits gap ≤ Scalar.largest)
    (hworst : heap.worst.getD Scalar.largest < s.reachUnits gap) :
    T.Takes s q rows heap heap := by
  refine takes_skip fun seen hk => ?_
  obtain ⟨hfull, hle⟩ := hk.worst_lt hworst hlargest
  refine ⟨hfull, fun i hi x hx => ?_⟩
  calc x.2 ≤ s.reachUnits gap := hle x hx
    _ ≤ s.reachUnits |q.point.get j - T.data.entry i j| := s.reachUnits_le hgap (hbeyond i hi)
    _ ≤ s.distanceTo T.data q i := h.reachUnits_le i j

/-! ### One node after the other -/

/-- The distance of a split from the query, signed by its side. -/
theorem plane_eq (s : Search ℝ n) (diff : ℝ) :
    s.plane diff = if diff < 0 then -s.reachUnits |diff| else s.reachUnits |diff| := by
  unfold Search.plane Search.reachUnits
  rw [scalar_abs]
  split
  · split
    next h => rw [abs_of_neg h]; ring
    next h => rw [abs_of_nonneg (not_lt.1 h)]
  · split
    next h => rw [abs_of_neg h, neg_neg]
    next h => rw [abs_of_nonneg (not_lt.1 h)]

theorem reaches_iff (s : Search ℝ n) (bound diff : ℝ) :
    s.Reaches bound diff ↔ s.reachUnits |diff| ≤ bound := by
  rw [Search.Reaches, plane_eq, scalar_zero]
  split
  · exact neg_le_neg_iff
  · exact Iff.rfl

/-- At a split whose box is not left out the point is offered, the half with the query is searched and
then the other one, unless the split is farther than the bound by then. -/
theorem nearestInto_split {id : ℕ} {v : Node ℝ n d} {point : Fin n} {left right : ℕ}
    (lookup : T.nodes[id]? = some v) (split : v.split = .inner point left right)
    (hbox : ¬ (heap.isFull &&
      s.overlap q.point (heap.worst.getD Scalar.largest) v.box = .outside) = true) (fuel : ℕ) :
    T.nearestInto s q (fuel + 1) id heap =
      let diff := q.point.get v.dim - T.data.entry point v.dim
      (T.nearestInto s q fuel (if diff < 0 then left else right) (T.offer s q heap point)).bind
        fun heap => if s.reachUnits |diff| ≤ heap.worst.getD Scalar.largest then
          T.nearestInto s q fuel (if diff < 0 then right else left) heap else .ok heap := by
  rw [nearestInto_inner lookup split hbox]
  simp only [reaches_iff, scalar_zero]

/-- Two halves searched one after the other, where the second one may be left out. -/
theorem takes_halves {fuel first second : ℕ} {gap : ℝ}
    (hfirst : ∃ heap', T.nearestInto s q fuel first heap = .ok heap' ∧
      T.Takes s q rows heap heap')
    (hsecond : ∀ heap, ∃ heap', T.nearestInto s q fuel second heap = .ok heap' ∧
      T.Takes s q rows' heap heap')
    (hskip : ∀ heap : BoundedHeap (Fin n) ℝ, heap.worst.getD Scalar.largest < gap →
      T.Takes s q rows' heap heap) :
    ∃ heap', ((T.nearestInto s q fuel first heap).bind fun heap =>
      if gap ≤ heap.worst.getD Scalar.largest then T.nearestInto s q fuel second heap
      else .ok heap) = .ok heap' ∧ T.Takes s q (rows ++ rows') heap heap' := by
  obtain ⟨between, hrun, htakes⟩ := hfirst
  rw [hrun, Except.bind]
  by_cases hnear : gap ≤ between.worst.getD Scalar.largest
  · rw [if_pos hnear]
    obtain ⟨heap', hrun', htakes'⟩ := hsecond between
    exact ⟨heap', hrun', htakes.trans htakes'⟩
  · rw [if_neg hnear]
    exact ⟨between, rfl, htakes.trans (hskip between (not_le.1 hnear))⟩

theorem nearestInto_outside (h : s.Asks T.data q) {id : ℕ} {v : Node ℝ n d}
    (lookup : T.nodes[id]? = some v) (box : ∀ i ∈ rows, v.box.Holds (T.data.get i))
    (hout : (heap.isFull &&
      s.overlap q.point (heap.worst.getD Scalar.largest) v.box = .outside) = true) (fuel : ℕ) :
    ∃ heap', T.nearestInto s q (fuel + 1) id heap = .ok heap' ∧ T.Takes s q rows heap heap' := by
  have hsides := hout
  rw [Bool.and_eq_true, decide_eq_true_iff] at hsides
  exact ⟨heap, nearestInto_leftOut lookup hout fuel, takes_outside h box hsides.1 hsides.2⟩

/-- The walk from a node ends, and the heap went through all rows below it. -/
theorem nearestInto_spec (h : s.Asks T.data q)
    (hlargest : ∀ i j, s.reachUnits |q.point.get j - T.data.entry i j| ≤ Scalar.largest)
    {size id : ℕ} (hcovers : T.Covers size id rows) (fuel : ℕ) (hfuel : size ≤ fuel)
    (heap : BoundedHeap (Fin n) ℝ) :
    ∃ heap', T.nearestInto s q fuel id heap = .ok heap' ∧ T.Takes s q rows heap heap' := by
  induction hcovers generalizing fuel heap with
  | @leaf id v rows lookup split range box nonempty =>
    obtain ⟨fuel, rfl⟩ := Nat.exists_eq_succ_of_ne_zero (Nat.ne_zero_of_lt hfuel)
    by_cases hout : (heap.isFull &&
        s.overlap q.point (heap.worst.getD Scalar.largest) v.box = .outside) = true
    · exact nearestInto_outside h lookup box hout fuel
    · refine ⟨_, ?_, takes_foldl rows heap⟩
      rw [nearestInto, lookup]
      dsimp only
      rw [if_neg hout, split, range]
  | @inner id left right sizeLeft sizeRight v point before after lookup split range box below above
      hleft hright ihleft ihright =>
    obtain ⟨fuel, rfl⟩ := Nat.exists_eq_succ_of_ne_zero (Nat.ne_zero_of_lt (by omega : 0 < fuel))
    by_cases hout : (heap.isFull &&
        s.overlap q.point (heap.worst.getD Scalar.largest) v.box = .outside) = true
    · exact nearestInto_outside h lookup box hout fuel
    · let diff := q.point.get v.dim - T.data.entry point v.dim
      -- whichever half the query is in, no row of the other one is nearer than the split
      have hbeyond {rows : List (Fin n)}
          (hrows : ∀ i ∈ rows, |diff| ≤ |q.point.get v.dim - T.data.entry i v.dim|)
          (heap : BoundedHeap (Fin n) ℝ)
          (hworst : heap.worst.getD Scalar.largest < s.reachUnits |diff|) :
          T.Takes s q rows heap heap :=
        takes_beyond h (abs_nonneg diff) hrows (hlargest point v.dim) hworst
      have hmiddle : ([point] ++ (before ++ after)).Perm (before ++ point :: after) := by
        rw [List.singleton_append]
        exact List.perm_middle.symm
      rw [nearestInto_split lookup split hout]
      dsimp only
      rcases lt_or_ge diff 0 with hdiff | hdiff
      · rw [if_pos hdiff, if_pos hdiff]
        obtain ⟨heap', hrun, htakes⟩ := takes_halves (ihleft fuel (by omega) _)
          (ihright fuel (by omega)) (hbeyond fun i hi => by
            rw [abs_of_neg hdiff]
            exact le_trans (by linarith [above i hi]) (neg_le_abs _))
        exact ⟨heap', hrun, ((takes_offer heap point).trans htakes).perm hmiddle⟩
      · rw [if_neg hdiff.not_gt, if_neg hdiff.not_gt]
        obtain ⟨heap', hrun, htakes⟩ := takes_halves (ihright fuel (by omega) _)
          (ihleft fuel (by omega)) (hbeyond fun i hi => by
            rw [abs_of_nonneg hdiff]
            exact le_trans (by linarith [below i hi]) (le_abs_self _))
        refine ⟨heap', hrun, ((takes_offer heap point).trans htakes).perm (.trans ?_ hmiddle)⟩
        exact List.perm_append_comm.append_left [point]

end Walk

/-! ## The searches -/

theorem offers_eq_ranked (T : KdTree ℝ n d) (m : Metric) (p : ℝ) {q : Probe ℝ n d}
    (hq : (Search.settings T.data m p).Measured q) :
    T.offers (.settings T.data m p) q (List.finRange n) =
      m.ranked p q.point T.data (candidates q.self) := by
  refine List.map_congr_left fun i _ => ?_
  rw [Search.distanceTo_eq T.data m p hq]

/-- A walk from the root with an empty heap ends with the smallest entries among the candidates. -/
theorem nearestInto_smallest {T : KdTree ℝ n d} {m : Metric} {p : ℝ} (hm : m.Searchable p)
    {rows : List (Fin n)} (hrows : rows.Perm (List.finRange n))
    (hcovers : T.Covers T.nodes.size 0 rows) {q : Probe ℝ n d}
    (hq : (Search.settings T.data m p).Measured q) (hk : k ≤ (candidates q.self).length)
    (hrange : m.InRange p q.point T.data) :
    ∃ heap, T.nearestInto (.settings T.data m p) q T.nodes.size 0 (.empty k) = .ok heap ∧
      Smallest k (m.ranked p q.point T.data (candidates q.self)) heap.sorted := by
  obtain ⟨heap, hrun, htakes⟩ := nearestInto_spec (Search.settings_asks hm hq)
    (hrange.reachUnits_le hm) hcovers T.nodes.size le_rfl (.empty k)
  refine ⟨heap, hrun, ?_⟩
  have hoffers : (T.offers (.settings T.data m p) q rows ++ []).Perm
      (m.ranked p q.point T.data (candidates q.self)) := by
    rw [List.append_nil, ← T.offers_eq_ranked m p hq]
    exact (hrows.filter _).map _
  have hkeeps := (htakes.keeps [] (BoundedHeap.empty_keeps k)).perm hoffers
  have hcapacity : heap.capacity = k := htakes.capacity
  rw [← hcapacity]
  apply hkeeps.sorted_smallest
  rw [hcapacity, Metric.ranked, List.length_map]
  exact hk

/-- Every query gets the smallest entries among its candidates. -/
theorem nearestNeighbours_spec {T : KdTree ℝ n d} {m : Metric} {p : ℝ} (hm : m.Searchable p)
    {rows : List (Fin n)} (hrows : rows.Perm (List.finRange n))
    (hcovers : T.Covers T.nodes.size 0 rows) {query : Option (Grid ℝ)}
    (hquery : Search.checkQuery d query = .ok ())
    (hcount : checkCount (if query.isNone then n - 1 else n) k = .ok ())
    {probe : Fin (queryCount n query) → Probe ℝ n d}
    (hprobes : T.probes (.settings T.data m p) query = .ok (Vector.ofFn probe))
    (hmeasured : ∀ q, (Search.settings T.data m p).Measured (probe q))
    (hk : ∀ q, k ≤ (candidates (probe q).self).length)
    (hrange : ∀ q, m.InRange p (probe q).point T.data) :
    ∃ found : Vector (List (Fin n × ℝ)) (queryCount n query),
      T.nearestNeighbours query k m p = .ok (.ofFound m p k found) ∧
      ∀ q, Smallest k (m.ranked p (probe q).point T.data (candidates (probe q).self))
        (found.get q) := by
  let s := Search.settings T.data m p
  have hwalk (q : Fin (queryCount n query)) :=
    nearestInto_smallest hm hrows hcovers (hmeasured q) (hk q) (hrange q)
  choose heap hrun hsmallest using hwalk
  let found := Vector.ofFn fun q => (heap q).sorted
  refine ⟨found, ?_, fun q => ?_⟩
  · rw [nearestNeighbours_eq (Search.checkMetric_ok hm) hquery hcount hprobes hrun]
    refine congrArg (fun lists => Except.ok (NeighbourTable.ofLists k lists)) ?_
    refine Vector.ext_get fun q => ?_
    rw [Vector.get_map, Vector.get_ofFn, Vector.get_ofFn]
  · rw [Vector.get_ofFn]
    exact hsmallest q

variable {T : KdTree ℝ n d} {m : Metric} {p : ℝ} (hm : m.Searchable p) {rows : List (Fin n)}
  (hrows : rows.Perm (List.finRange n)) (hcovers : T.Covers T.nodes.size 0 rows) (hk : 0 < k)

include hm hrows hcovers hk

theorem nearestNeighbours_points (hr : 0 < r) (Q : Matrix ℝ r d) (hle : k ≤ n)
    (hrange : ∀ q, m.InRange p (Q.get q) T.data) :
    ∃ found : Vector (List (Fin n × ℝ)) r,
      T.nearestNeighbours (some (.ofMatrix Q)) k m p = .ok (.ofFound m p k found) ∧
      ∀ q, Smallest k (m.ranked p (Q.get q) T.data (candidates none)) (found.get q) := by
  have hlen : k ≤ (candidates (none : Option (Fin n))).length := by rwa [candidates_length]
  have hspec := nearestNeighbours_spec hm hrows hcovers (Search.checkQuery_points hr Q)
    (checkCount_ok hk hle) (T.probes_points _ Q) fun _ => pointProbe_measured _ _
  exact hspec (fun _ => hlen) hrange

theorem nearestNeighbours_self (hle : k ≤ n - 1)
    (hrange : ∀ q, m.InRange p (T.data.get q) T.data) :
    ∃ found : Vector (List (Fin n × ℝ)) n,
      T.nearestNeighbours none k m p = .ok (.ofFound m p k found) ∧
      ∀ q, Smallest k (m.ranked p (T.data.get q) T.data (candidates (some q))) (found.get q) := by
  have hquery : Search.checkQuery d (none : Option (Grid ℝ)) = .ok () := rfl
  have hlen (q : Fin n) : k ≤ (candidates (some q)).length := by rwa [candidates_length]
  have hspec := nearestNeighbours_spec hm hrows hcovers hquery (checkCount_ok hk hle) rfl
    (selfProbe_measured T m p)
  exact hspec hlen hrange

end KdTree

/-- Searches for the nearest rows are exact: where the numbers are in range, a tree built by any
selection answers with the nearest candidates of each query, and so does the exhaustive search where it
has room. -/
theorem nearest_searches_exact [Machine] (g : Grid ℝ) (hr : 0 < g.rows) (hc : 0 < g.cols)
    {S : Selection (Fin g.rows) ℝ} (hS : S.Partitions) {leafSize : ℕ} (hleaf : 0 < leafSize)
    (hword : 2 * leafSize < UInt64.size) {m : Metric} {p : ℝ} (hm : m.Searchable p) {k : ℕ}
    (hk : 0 < k) :
    ∃ T, KdTree.buildWith S g.entries leafSize = .ok T ∧
      (∀ (r : ℕ) (Q : Matrix ℝ r g.cols), 0 < r → k ≤ g.rows →
        (∀ q, m.InRange p (Q.get q) g.entries) →
        ∃ t t' : NeighbourTable ℝ r k,
          T.nearestNeighbours (some (.ofMatrix Q)) k m p = .ok t ∧
          g.nearestNeighbours (some (.ofMatrix Q)) k m p =
            (tableRoom (Scalar.bytes ℝ) r g.rows).map (fun _ => t') ∧
          t.Agree t' (fun _ _ => True) fun q i => m.distance p (Q.get q) (g.entries.get i)) ∧
      (k ≤ g.rows - 1 → (∀ q, m.InRange p (g.entries.get q) g.entries) →
        ∃ t t' : NeighbourTable ℝ g.rows k,
          T.nearestNeighbours none k m p = .ok t ∧
          g.nearestNeighbours none k m p =
            (tableRoom (Scalar.bytes ℝ) g.rows g.rows).map (fun _ => t') ∧
          t.Agree t' (fun q i => i ≠ q) fun q i =>
            m.distance p (g.entries.get q) (g.entries.get i)) := by
  obtain ⟨T, hT, hdata, rows, hrows, hcovers⟩ :=
    KdTree.buildWith_covers hS hr hc g.entries hleaf hword
  refine ⟨T, hT, fun r Q hQ hle hrange => ?_, fun hle hrange => ?_⟩
  · rw [← hdata] at hrange
    obtain ⟨found, hfound, hspec⟩ :=
      KdTree.nearestNeighbours_points hm hrows hcovers hk hQ Q hle hrange
    obtain ⟨found', hfound', hspec'⟩ := g.nearestNeighbours_points hm.pos Q hk hle
    rw [hdata] at hspec
    refine ⟨_, _, hfound, hfound', ?_⟩
    exact NeighbourTable.ofFound_agree (x := Q.get) (fun _ => candidates_nodup none)
      (by simp [mem_candidates]) hspec hspec'
  · rw [← hdata] at hrange
    obtain ⟨found, hfound, hspec⟩ := KdTree.nearestNeighbours_self hm hrows hcovers hk hle hrange
    obtain ⟨found', hfound', hspec'⟩ := g.nearestNeighbours_self hm.pos hk hle
    rw [hdata] at hspec
    refine ⟨_, _, hfound, hfound', ?_⟩
    exact NeighbourTable.ofFound_agree (x := g.entries.get) (fun q => candidates_nodup (some q))
      (by simp [mem_candidates, eq_comm]) hspec hspec'

omit [RealFormat] in
/-- Three rows in a tree of single leaves: the row at zero finds the row at one. -/
theorem nearest_searches_exact_three_rows :
    letI : RealFormat := { RealFormat.plain with largest := 100 }
    letI := Machine.standard
    let g : Grid ℝ := ⟨3, 1, #v[0, 1, 10]⟩
    ((Selection.bySorting (Fin 3) ℝ).Partitions ∧ Metric.manhattan.Searchable 1 ∧
      2 * 1 < UInt64.size ∧ ∀ q, Metric.manhattan.InRange 1 (g.entries.get q) g.entries) ∧
    ∃ (T : KdTree ℝ 3 1) (t t' : NeighbourTable ℝ 3 1),
      KdTree.buildWith (.bySorting (Fin 3) ℝ) g.entries 1 = .ok T ∧
      T.nearestNeighbours none 1 .manhattan 1 = .ok t ∧
      g.nearestNeighbours none 1 .manhattan 1 = .ok t' ∧ t.distances = t'.distances ∧
      (t.indices.get 0).get 0 = 1 := by
  let _ : RealFormat := { RealFormat.plain with largest := 100 }
  let _ := Machine.standard
  intro g
  have hS := Selection.bySorting_partitions (Fin 3)
  have hm : Metric.manhattan.Searchable 1 := ⟨Metric.noConfusion, fun h => nomatch h⟩
  have hword : 2 * 1 < UInt64.size := by decide
  let x : Fin 3 → ℝ := ![0, 1, 10]
  have hentry (i : Fin 3) (j : Fin 1) : (g.entries.get i).get j = x i := by
    rw [g.get_entries]
    fin_cases i <;> fin_cases j <;> rfl
  have hdist (q i : Fin 3) :
      Metric.manhattan.distance 1 (g.entries.get q) (g.entries.get i) = |x q - x i| := by
    rw [Metric.distance_manhattan]
    refine (Fin.sum_univ_one _).trans ?_
    rw [hentry, hentry]
  have hbounds (i : Fin 3) : 0 ≤ x i ∧ x i ≤ 10 := by
    fin_cases i <;> norm_num [x]
  have hgap (q i : Fin 3) : |x q - x i| ≤ 10 := by
    rw [abs_le]
    constructor <;> linarith [hbounds q, hbounds i]
  have hrange : ∀ q, Metric.manhattan.InRange 1 (g.entries.get q) g.entries := by
    intro q
    constructor
    · intro i
      rw [hdist]
      exact (hgap q i).trans (show (10 : ℝ) ≤ 100 by norm_num)
    · intro i j
      have hsquare := pow_le_pow_left₀ (abs_nonneg _) (hgap q i) 2
      rw [sq_abs] at hsquare
      rw [hentry, show g.entries.entry i j = x i from hentry i j]
      exact hsquare.trans (show (10 : ℝ) ^ 2 ≤ 100 by norm_num)
  refine ⟨⟨hS, hm, hword, hrange⟩, ?_⟩
  obtain ⟨T, hT, -, hself⟩ := nearest_searches_exact g (by decide) (by decide) hS Nat.one_pos hword hm
    Nat.one_pos
  obtain ⟨t, t', ht, ht', hlists, hdistances, -⟩ := hself (by decide) hrange
  refine ⟨T, t, t', hT, ht, ht'.trans rfl, hdistances, ?_⟩
  obtain ⟨row, -, hrow, -, hleast⟩ := (hlists 0).1
  rw [show (t.indices.get 0).get 0 = (row 0).val from (hrow 0).2.1]
  by_contra hne
  have hlast (i : Fin 3) (h₀ : i ≠ 0) (h₁ : i.val ≠ 1) : i = 2 := by omega
  have htwo : row 0 = (2 : Fin 3) := hlast (row 0) (hrow 0).1 hne
  have hout (s : Fin 1) : row s ≠ (1 : Fin 3) := by
    intro h
    rw [Subsingleton.elim 0 s, h] at hne
    exact hne rfl
  have hfar := hleast (1 : Fin 3) (by decide) hout 0
  dsimp only at hfar
  rw [hdist, hdist, htwo] at hfar
  change |(0 : ℝ) - 10| ≤ |0 - 1| at hfar
  norm_num at hfar

end

end Proximity
