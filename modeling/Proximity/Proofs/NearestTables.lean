import Proximity.Proofs.Metrics
import Proximity.Proofs.Smallest

/-!
# Tables of nearest rows

What a search for the nearest rows finds is a list of rows with distances for each query, and its
answer is the table of these lists. If the lists are the smallest entries among all candidates, then
the table lists the nearest candidates, and any two such tables agree.

1. `Lists` and `Agree`: one table, and two tables of the nearest candidates.
2. `ofFound_lists` and `ofFound_agree`: the tables of the smallest entries.
3. `Grid.nearestNeighbours_spec`: the exhaustive search finds the smallest entries.
-/

namespace Proximity

noncomputable section

variable [RealFormat] {n d r k : ℕ}

/-- Rows with their distances from a point, as a search evaluates them. -/
def Metric.ranked (m : Metric) (p : ℝ) (x : Point ℝ d) (M : Matrix ℝ n d) (rows : List (Fin n)) :
    List (Fin n × ℝ) :=
  rows.map fun i => (i, m.searched p x (M.get i))

namespace NeighbourTable

/-- Row `q` lists different candidates by ascending distance, with their distances, and no candidate
that is left out is nearer than one that is listed. -/
def Lists (t : NeighbourTable ℝ r k) (q : Fin r) (candidate : Fin n → Prop) (dist : Fin n → ℝ) :
    Prop :=
  ∃ row : Fin k → Fin n, Function.Injective row ∧
    (∀ s, candidate (row s) ∧ (t.indices.get q).get s = (row s).val ∧
      (t.distances.get q).get s = dist (row s)) ∧
    Monotone (fun s => dist (row s)) ∧
    ∀ i, candidate i → (∀ s, row s ≠ i) → ∀ s, dist (row s) ≤ dist i

/-- Two tables list the nearest candidates of each query with the same distances, and with the same
rows where the distances tell the candidates apart. -/
structure Agree (t t' : NeighbourTable ℝ r k) (candidate : Fin r → Fin n → Prop)
    (dist : Fin r → Fin n → ℝ) : Prop where
  lists : ∀ q, t.Lists q (candidate q) (dist q) ∧ t'.Lists q (candidate q) (dist q)
  distances : t.distances = t'.distances
  indices : ∀ q, (∀ i j, candidate q i → candidate q j → dist q i = dist q j → i = j) →
    t.indices.get q = t'.indices.get q

/-- The table of what was found for each query, with distances in the units of the caller. -/
def ofFound (m : Metric) (p : ℝ) (k : ℕ) (found : Vector (List (Fin n × ℝ)) r) :
    NeighbourTable ℝ r k :=
  .ofLists k (found.map fun l => l.map fun e => (e.1.val, m.externalDistance p e.2))

variable {m : Metric} {p : ℝ} {found found' : Vector (List (Fin n × ℝ)) r} {q : Fin r}

theorem ofFound_get (s : Fin k) (hs : s.val < (found.get q).length) :
    ((ofFound m p k found).indices.get q).get s = ((found.get q)[s.val]).1.val ∧
      ((ofFound m p k found).distances.get q).get s =
        m.externalDistance p ((found.get q)[s.val]).2 := by
  simp only [ofFound, ofLists, Vector.get_map, Vector.get_ofFn, List.getElem?_map,
    List.getElem?_eq_getElem hs]
  exact ⟨rfl, rfl⟩

variable {x : Fin r → Point ℝ d} {M : Matrix ℝ n d} {rows : Fin r → List (Fin n)}

/-- The smallest entries make a table that lists the candidates. -/
theorem ofFound_lists (hnodup : (rows q).Nodup)
    (h : Smallest k (m.ranked p (x q) M (rows q)) (found.get q)) :
    (ofFound m p k found).Lists q (· ∈ rows q) fun i => m.distance p (x q) (M.get i) := by
  have hlt (s : Fin k) : s.val < (found.get q).length := s.isLt.trans_eq h.length.symm
  let entry (s : Fin k) : Fin n × ℝ := (found.get q).get ⟨s.val, hlt s⟩
  have hentry (s : Fin k) : (entry s).1 ∈ rows q ∧
      (entry s).2 = m.searched p (x q) (M.get (entry s).1) := by
    obtain ⟨i, hi, heq⟩ := List.mem_map.1 (h.mem (List.getElem_mem (hlt s)))
    rw [show entry s = _ from heq.symm]
    exact ⟨hi, rfl⟩
  have hdist (s : Fin k) :
      m.externalDistance p (entry s).2 = m.distance p (x q) (M.get (entry s).1) := by
    rw [(hentry s).2, m.externalDistance_eq]
  refine ⟨fun s => (entry s).1, ?_, fun s => ⟨(hentry s).1, ?_, ?_⟩, ?_, ?_⟩
  · intro s t hst
    exact Fin.ext (h.index_inj hnodup (hlt s) (hlt t) hst)
  · exact (ofFound_get s (hlt s)).1
  · exact (ofFound_get s (hlt s)).2.trans (hdist s)
  · intro s t hst
    dsimp only
    rw [← hdist, ← hdist]
    apply m.externalDistance_mono p
    rcases hst.eq_or_lt with rfl | hst
    · exact le_rfl
    · exact List.pairwise_iff_getElem.1 h.ascending s t (hlt s) (hlt t) hst
  · intro i hi hout s
    have hmem : (i, m.searched p (x q) (M.get i)) ∉ found.get q := by
      intro hmem
      obtain ⟨t, ht, heq⟩ := List.getElem_of_mem hmem
      exact hout ⟨t, ht.trans_eq h.length⟩ (congrArg Prod.fst heq)
    dsimp only
    rw [← hdist, ← m.externalDistance_eq p (x q) (M.get i)]
    apply m.externalDistance_mono p
    exact h.le_of_not_mem (List.getElem_mem (hlt s)) (List.mem_map_of_mem hi) hmem

/-- Two searches that find the smallest entries among the same candidates agree. -/
theorem ofFound_agree {candidate : Fin r → Fin n → Prop} (hnodup : ∀ q, (rows q).Nodup)
    (hrows : ∀ q i, i ∈ rows q ↔ candidate q i)
    (h : ∀ q, Smallest k (m.ranked p (x q) M (rows q)) (found.get q))
    (h' : ∀ q, Smallest k (m.ranked p (x q) M (rows q)) (found'.get q)) :
    (ofFound m p k found).Agree (ofFound m p k found') candidate
      fun q i => m.distance p (x q) (M.get i) := by
  have hcandidate (q : Fin r) : candidate q = (· ∈ rows q) :=
    funext fun i => propext (hrows q i).symm
  constructor
  · intro q
    rw [hcandidate]
    exact ⟨ofFound_lists (hnodup q) (h q), ofFound_lists (hnodup q) (h' q)⟩
  · refine Vector.ext_get fun q => Vector.ext_get fun s => ?_
    have hs : s.val < (found.get q).length := s.isLt.trans_eq (h q).length.symm
    have hs' : s.val < (found'.get q).length := s.isLt.trans_eq (h' q).length.symm
    rw [(ofFound_get s hs).2, (ofFound_get s hs').2]
    have heq := congrArg (·[s.val]?) ((h q).distances_eq (h' q))
    simp only [List.getElem?_map, List.getElem?_eq_getElem hs, List.getElem?_eq_getElem hs'] at heq
    exact congrArg (m.externalDistance p) (Option.some.inj heq)
  · intro q hinj
    have heq : found.get q = found'.get q := by
      refine (h q).eq (h' q) fun u hu v hv huv => ?_
      obtain ⟨i, hi, rfl⟩ := List.mem_map.1 hu
      obtain ⟨j, hj, rfl⟩ := List.mem_map.1 hv
      obtain rfl : i = j := by
        refine hinj i j ((hrows q i).1 hi) ((hrows q j).1 hj) ?_
        rw [← m.externalDistance_eq, ← m.externalDistance_eq p (x q) (M.get j)]
        exact congrArg (m.externalDistance p) huv
      rfl
    simp only [ofFound, ofLists, Vector.get_map, heq]

end NeighbourTable

/-! ## Candidates -/

/-- The rows that a query may find: all of them, or all but the one that it is itself. -/
def candidates (self : Option (Fin n)) : List (Fin n) :=
  (List.finRange n).filter fun i => self ≠ some i

omit [RealFormat] in
theorem mem_candidates {self : Option (Fin n)} {i : Fin n} :
    i ∈ candidates self ↔ self ≠ some i := by
  simp [candidates]

omit [RealFormat] in
theorem candidates_nodup (self : Option (Fin n)) : (candidates self).Nodup :=
  (List.nodup_finRange n).filter _

omit [RealFormat] in
theorem candidates_length (self : Option (Fin n)) :
    (candidates self).length = if self.isNone then n else n - 1 := by
  cases self with
  | none => simp [candidates]
  | some q =>
    have herase : candidates (some q) = (List.finRange n).erase q := by
      rw [(List.nodup_finRange n).erase_eq_filter]
      refine List.filter_congr fun i _ => ?_
      rw [Bool.eq_iff_iff]
      simp [@eq_comm _ i q]
    rw [herase, List.length_erase_of_mem (List.mem_finRange q), List.length_finRange]
    rfl

/-! ## The exhaustive search -/

/-- The table that the exhaustive search reads, where there is room for it. -/
theorem searchTable_eq [Machine] {m : Metric} {p : ℝ} (hm : m = .minkowski → 0 < p) {x y : Grid ℝ}
    {ys : Matrix ℝ y.rows x.cols} (hys : y.withCols? x.cols = some ys) :
    searchTable m p x y = (tableRoom (Scalar.bytes ℝ) x.rows y.rows).map fun _ =>
      Matrix.ofFn fun i j => m.searched p (x.entries.get i) (ys.get j) := by
  have hcols : x.cols = y.cols := by
    by_contra hne
    rw [Grid.withCols?, Grid.shaped?_eq_none fun h => hne h.2.symm] at hys
    cases hys
  unfold searchTable
  by_cases hsq : m.evaluated p = .sqEuclidean
  · have htable : euclideanDistances x.entries ys true =
        Matrix.ofFn fun i j => m.searched p (x.entries.get i) (ys.get j) := by
      rw [← Matrix.ofFn_entry (euclideanDistances x.entries ys true)]
      refine congrArg Matrix.ofFn (funext fun i => funext fun j => ?_)
      rw [euclideanDistances_entry, if_pos rfl, Metric.searched, hsq, Metric.distance_sqEuclidean]
    rw [if_pos hsq, ← htable, euclideanDistancesOf, tableOf, hys]
    simp only [ite_self]
    rfl
  · rw [if_neg hsq, Metric.pairwise, Metric.validate_eq_ok hm, if_pos hcols, hys]
    simp only [Metric.table, if_neg hsq]
    rfl

/-- The exhaustive search finds the smallest entries among the candidates of each query. -/
theorem Grid.nearestNeighbours_spec [Machine] (g : Grid ℝ) {m : Metric} {p : ℝ}
    (hm : m = .minkowski → 0 < p) (query : Option (Grid ℝ))
    {M : Matrix ℝ g.rows (query.getD g).cols} (hM : g.withCols? (query.getD g).cols = some M)
    (hcount : checkCount (if query.isNone then g.rows - 1 else g.rows) k = .ok ())
    (self : Fin (query.getD g).rows → Option (Fin g.rows))
    (hself : ∀ q, (self q).map (·.val) = if query.isNone then some q.val else none)
    (hk : ∀ q, k ≤ (candidates (self q)).length) :
    ∃ found : Vector (List (Fin g.rows × ℝ)) (query.getD g).rows,
      g.nearestNeighbours query k m p =
        (tableRoom (Scalar.bytes ℝ) (query.getD g).rows g.rows).map
          (fun _ => .ofFound m p k found) ∧
      ∀ q, Smallest k (m.ranked p ((query.getD g).entries.get q) M (candidates (self q)))
        (found.get q) := by
  let dist (q : Fin (query.getD g).rows) (j : Fin g.rows) : ℝ :=
    m.searched p ((query.getD g).entries.get q) (M.get j)
  let found := Vector.ofFn fun q => ((StableSort.sort (fun a b => dist q a < dist q b)
    (candidates (self q))).take k).map fun j => (j, dist q j)
  have hrows (q : Fin (query.getD g).rows) :
      ((List.finRange g.rows).filter fun j =>
        (if query.isNone then some q.val else none) ≠ some j.val) = candidates (self q) := by
    refine List.filter_congr fun j _ => ?_
    rw [← hself]
    cases self q with
    | none => rfl
    | some i => simp [Fin.ext_iff]
  have hread (q : Fin (query.getD g).rows) (j : Fin g.rows) :
      ((Matrix.ofFn dist).get q).get j = dist q j := by
    rw [Matrix.ofFn, Vector.get_ofFn, Vector.get_ofFn]
  refine ⟨found, ?_, fun q => ?_⟩
  · unfold nearestNeighbours
    dsimp only
    rw [hcount, searchTable_eq hm hM]
    cases tableRoom (Scalar.bytes ℝ) (query.getD g).rows g.rows with
    | error e => rfl
    | ok _ =>
      refine congrArg Except.ok ?_
      refine congrArg (NeighbourTable.ofLists k) (Vector.ext_get fun q => ?_)
      rw [Vector.get_ofFn, Vector.get_map, Vector.get_ofFn, nearestColumns, hrows, List.map_map]
      simp only [Matrix.entry, hread, dist]
      rfl
  · rw [Vector.get_ofFn]
    exact smallest_take (dist q) (hk q)

omit [RealFormat] in
theorem checkCount_ok {count : ℕ} (hk : 0 < k) (hle : k ≤ count) : checkCount count k = .ok () :=
  if_neg fun h => h.elim hk.ne' hle.not_gt

theorem Grid.nearestNeighbours_points [Machine] (g : Grid ℝ) {m : Metric} {p : ℝ}
    (hm : m = .minkowski → 0 < p) (Q : Matrix ℝ r g.cols) (hk : 0 < k) (hle : k ≤ g.rows) :
    ∃ found : Vector (List (Fin g.rows × ℝ)) r,
      g.nearestNeighbours (some (.ofMatrix Q)) k m p =
        (tableRoom (Scalar.bytes ℝ) r g.rows).map (fun _ => .ofFound m p k found) ∧
      ∀ q, Smallest k (m.ranked p (Q.get q) g.entries (candidates none)) (found.get q) := by
  have hM : g.withCols? g.cols = some g.entries := dif_pos ⟨rfl, rfl⟩
  have hlen : k ≤ (candidates (none : Option (Fin g.rows))).length := by
    rwa [candidates_length]
  obtain ⟨found, hfound, hspec⟩ := g.nearestNeighbours_spec hm (some (.ofMatrix Q)) hM
    (checkCount_ok hk hle) (fun _ => none) (fun _ => rfl) fun _ => hlen
  refine ⟨found, hfound, fun q => ?_⟩
  have hq := hspec q
  change Smallest k (m.ranked p ((ofMatrix Q).entries.get q) g.entries (candidates none)) _ at hq
  rwa [entries_ofMatrix] at hq

theorem Grid.nearestNeighbours_self [Machine] (g : Grid ℝ) {m : Metric} {p : ℝ}
    (hm : m = .minkowski → 0 < p) (hk : 0 < k) (hle : k ≤ g.rows - 1) :
    ∃ found : Vector (List (Fin g.rows × ℝ)) g.rows,
      g.nearestNeighbours none k m p =
        (tableRoom (Scalar.bytes ℝ) g.rows g.rows).map (fun _ => .ofFound m p k found) ∧
      ∀ q, Smallest k (m.ranked p (g.entries.get q) g.entries (candidates (some q)))
        (found.get q) := by
  have hM : g.withCols? g.cols = some g.entries := dif_pos ⟨rfl, rfl⟩
  have hlen (q : Fin g.rows) : k ≤ (candidates (some q)).length := by
    rwa [candidates_length]
  exact g.nearestNeighbours_spec hm none hM (checkCount_ok hk hle) some (fun _ => rfl) hlen

end

end Proximity
