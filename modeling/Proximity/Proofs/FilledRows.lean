import Proximity.Proofs.BoundedHeap
import Proximity.Proofs.NearestTables
import Proximity.Proofs.Trees
import Proximity.Proofs.Walks

/-!
# Rows that are filled

A search in a tree writes what it found into the front of a row of its answer, and the slots that nothing
was found for stay zero. What is found are different candidates with the distances that were computed for
them, whatever numbers these are. A walk leaves out a box only when its heap is full, but a split also
before that, when it lies beyond the largest number: as long as no split does, all rows are filled.

1. `Spans`: a part of an array of nodes is a tree over some rows. `buildWith_spans` gives it of every
   tree that is built.
2. `Fills`: what a part of a walk does to the heap, and `nearestInto_fills` by induction on the tree.
3. `NeighbourTable.Finds` and `rows_filled`.
4. `rows_left_open`: a split that is beyond the largest number.
-/

namespace Proximity

variable {α : Type} {n d r k : ℕ}

/-! ## Trees over rows -/

namespace KdTree

/-- The `size` nodes reached from position `id` are a tree over some rows, whatever its boxes are and
wherever it splits them. -/
inductive Spans (T : KdTree α n d) : (size id : ℕ) → (rows : List (Fin n)) → Prop
  | leaf {id : ℕ} {v : Node α n d} {rows : List (Fin n)} (lookup : T.nodes[id]? = some v)
      (split : v.split = .leaf) (range : T.rowsOf v = rows) : Spans T 1 id rows
  | inner {id left right sizeLeft sizeRight : ℕ} {v : Node α n d} {point : Fin n}
      {before after : List (Fin n)} (lookup : T.nodes[id]? = some v)
      (split : v.split = .inner point left right) (hleft : Spans T sizeLeft left before)
      (hright : Spans T sizeRight right after) :
      Spans T (1 + sizeLeft + sizeRight) id (before ++ point :: after)

section Grow

variable [Neg α] [Scalar α] {S : Selection (Fin n) α} {hd : 0 < d}

theorem grow_spans {T : KdTree α n d} {leafSize : ℕ} (hleaf : 0 < leafSize)
    (hword : 2 * leafSize < UInt64.size) (depth start : ℕ) {rows : List (Fin n)} (hrows : rows ≠ []) :
    let g := grow S T.data hd leafSize depth start rows
    ∀ id, T.Contains id start g → g.order.Perm rows ∧ T.Spans g.nodes.size id g.order := by
  refine grow_induction (P := fun _ start rows g => ∀ id, T.Contains id start g →
    g.order.Perm rows ∧ T.Spans g.nodes.size id g.order) hleaf hword ?_ ?_ depth start rows hrows
  · intro depth start rows _ _ id hin
    exact ⟨List.Perm.refl rows, .leaf (hin.nodes 0 _ rfl) rfl (hin.rowsOf_eq rfl rfl)⟩
  · intro depth start rows before point after L R _ _ hrun hlen _ _ hleft hright id hin
    obtain ⟨hpermL, hspansL⟩ := hleft _ hin.left
    have hinR := hin.right
    rw [hpermL.length_eq, hlen] at hinR
    obtain ⟨hpermR, hspansR⟩ := hright _ hinR
    rw [Growth.join_size]
    exact ⟨Growth.join_perm hrun hpermL hpermR, .inner hin.root rfl hspansL hspansR⟩

/-- A tree is built of every matrix with rows and columns, whatever its entries are, and it spans all
rows. The doubled leaf size is a word that is not zero. -/
theorem buildWith_spans (S : Selection (Fin n) α) (hn : 0 < n) (hd : 0 < d) (M : Matrix α n d)
    {leafSize : ℕ} (hleaf : Memory.wrap (2 * leafSize) ≠ 0) :
    ∃ T, buildWith S M leafSize = .ok T ∧ T.data = M ∧
      ∃ rows, rows.Perm (List.finRange n) ∧ T.Spans T.nodes.size 0 rows := by
  have hpos : 0 < leafSize := Nat.pos_of_ne_zero fun h => hleaf (by rw [h]; rfl)
  -- without its highest bit the leaf size has the same double, which then is a word
  have hdouble : 2 * (leafSize % 2 ^ 63) = Memory.wrap (2 * leafSize) := by
    unfold Memory.wrap UInt64.size
    omega
  have hword : 2 * (leafSize % 2 ^ 63) < UInt64.size := hdouble.trans_lt (Memory.wrap_lt _)
  let g := grow S M hd (leafSize % 2 ^ 63) 0 0 (List.finRange n)
  have hbuild : buildWith S M leafSize = .ok (ofGrowth M leafSize g) := by
    rw [buildWith_eq S hn hd M hpos, ← grow_mod]
  exact ⟨_, hbuild, rfl, g.order,
    grow_spans (by omega) hword 0 0 (finRange_ne_nil hn) 0 (contains_growth M leafSize g)⟩

end Grow

end KdTree

/-! ## The walk -/

variable [Add α] [Sub α] [Mul α] [Div α] [Neg α] [LT α] [LE α] [DecidableLT α] [BEq α] [Scalar α]

/-- No split at a coordinate of a row is beyond the largest number. -/
def Search.SplitsInRange (s : Search α n) (x : Point α d) (M : Matrix α n d) : Prop :=
  ∀ i j, s.Reaches Scalar.largest (x.get j - M.entry i j)

instance [DecidableLE α] (s : Search α n) (x : Point α d) (M : Matrix α n d) :
    Decidable (s.SplitsInRange x M) :=
  inferInstanceAs (Decidable (∀ i j, s.Reaches Scalar.largest (x.get j - M.entry i j)))

/-- Row `q` of a table lists different candidates with their distances, at most as many as it has slots,
and zeros in the slots after them. -/
structure NeighbourTable.Finds (t : NeighbourTable α r k) (q : Fin r) (found : List (Fin n))
    (candidate : Fin n → Prop) (dist : Fin n → α) : Prop where
  nodup : found.Nodup
  candidate : ∀ i ∈ found, candidate i
  length_le : found.length ≤ k
  slots : ∀ s : Fin k, (t.indices.get q).get s = (found[s.val]?.map (·.val)).getD 0 ∧
    (t.distances.get q).get s = (found[s.val]?.map dist).getD Scalar.zero

namespace KdTree

/-- The rows that a query admits, with the distances that are computed for them. -/
def visited (T : KdTree α n d) (s : Search α n) (q : Probe α n d) (rows : List (Fin n)) :
    List (Fin n × α) :=
  (rows.filter q.admits).map fun i => (i, s.distanceTo T.data q i)

/-- What a part of a walk through some rows does to the heap. All that is in it was there before or was
visited, and as long as there is room nothing that was visited is missing. -/
structure Fills (T : KdTree α n d) (s : Search α n) (q : Probe α n d) (rows : List (Fin n))
    (heap heap' : BoundedHeap (Fin n) α) : Prop where
  capacity : heap'.capacity = heap.capacity
  subperm : heap'.entries.toList.Subperm (T.visited s q rows ++ heap.entries.toList)
  bounded : heap.entries.size ≤ heap.capacity → heap'.entries.size ≤ heap'.capacity
  full : heap.isFull = true → heap'.isFull = true
  room : s.SplitsInRange q.point T.data → heap'.isFull = true ∨
    heap'.entries.size = (T.visited s q rows).length + heap.entries.size

variable {T : KdTree α n d} {s : Search α n} {q : Probe α n d} {rows rows' : List (Fin n)}
  {heap heap' heap'' : BoundedHeap (Fin n) α}

omit [Neg α] [LT α] [LE α] [DecidableLT α] in
theorem visited_append :
    T.visited s q (rows ++ rows') = T.visited s q rows ++ T.visited s q rows' := by
  rw [visited, List.filter_append, List.map_append, visited, visited]

omit [Neg α] [LT α] [LE α] [DecidableLT α] in
theorem visited_perm (hp : rows.Perm rows') : (T.visited s q rows).Perm (T.visited s q rows') :=
  (hp.filter _).map _

theorem Fills.perm (h : T.Fills s q rows heap heap') (hp : rows.Perm rows') :
    T.Fills s q rows' heap heap' where
  capacity := h.capacity
  subperm := h.subperm.trans ((visited_perm hp).append_right _).subperm
  bounded := h.bounded
  full := h.full
  room hrange := (h.room hrange).imp_right fun hsize => by
    rw [hsize, (visited_perm hp).length_eq]

theorem Fills.trans (h : T.Fills s q rows heap heap') (h' : T.Fills s q rows' heap' heap'') :
    T.Fills s q (rows ++ rows') heap heap'' where
  capacity := h'.capacity.trans h.capacity
  subperm := by
    refine h'.subperm.trans ((List.subperm_append_left _).2 h.subperm |>.trans ?_)
    rw [visited_append, List.append_assoc]
    exact (List.perm_append_comm_assoc _ _ _).subperm
  bounded := h'.bounded ∘ h.bounded
  full := h'.full ∘ h.full
  room hrange := by
    rcases h.room hrange with hfull | hsize
    · exact Or.inl (h'.full hfull)
    · refine (h'.room hrange).imp_right fun hsize' => ?_
      rw [hsize', hsize, visited_append, List.length_append]
      omega

/-- Rows that are left out. -/
theorem fills_skip (hskip : s.SplitsInRange q.point T.data → heap.isFull = true) :
    T.Fills s q rows heap heap where
  capacity := rfl
  subperm := (List.sublist_append_right _ _).subperm
  bounded := id
  full := id
  room hrange := Or.inl (hskip hrange)

/-- Rows that the query does not admit. -/
theorem fills_nothing (hnone : T.visited s q rows = []) (heap : BoundedHeap (Fin n) α) :
    T.Fills s q rows heap heap where
  capacity := rfl
  subperm := by rw [hnone]; exact List.Subperm.refl _
  bounded := id
  full := id
  room _ := Or.inr (by rw [hnone]; exact (Nat.zero_add _).symm)

theorem fills_insert {i : Fin n} (hi : q.admits i = true) (heap : BoundedHeap (Fin n) α) :
    T.Fills s q [i] heap (heap.insert i (s.distanceTo T.data q i)) := by
  have hone : T.visited s q [i] = [(i, s.distanceTo T.data q i)] := by
    rw [visited, List.filter_cons_of_pos hi]
    rfl
  have hsize := heap.insert_size i (s.distanceTo T.data q i)
  refine ⟨heap.insert_capacity i _, ?_, fun hle => ?_, fun hfull => ?_, fun _ => ?_⟩
  · rw [hone]
    exact heap.insert_subperm i _
  · rw [heap.insert_capacity, hsize]
    split
    next => exact hle
    next hroom => exact not_le.1 (mt decide_eq_true hroom)
  · exact BoundedHeap.insert_isFull hfull i _
  · by_cases hfull : heap.isFull = true
    · exact Or.inl (BoundedHeap.insert_isFull hfull i _)
    · rw [if_neg hfull] at hsize
      exact Or.inr (by rw [hsize, hone, List.length_singleton, Nat.add_comm])

theorem fills_offer (heap : BoundedHeap (Fin n) α) (i : Fin n) :
    T.Fills s q [i] heap (T.offer s q heap i) := by
  unfold offer
  by_cases hi : q.admits i = true
  · rw [if_pos hi]
    exact fills_insert hi heap
  · rw [if_neg hi]
    refine fills_nothing ?_ heap
    rw [visited, List.filter_cons_of_neg hi]
    rfl

theorem fills_foldl (rows : List (Fin n)) (heap : BoundedHeap (Fin n) α) :
    T.Fills s q rows heap (rows.foldl (T.offer s q) heap) := by
  induction rows generalizing heap with
  | nil => exact fills_nothing rfl heap
  | cons i rows ih => exact (fills_offer heap i).trans (ih _)

variable [DecidableLE α]

omit [Add α] [Div α] [BEq α] [DecidableLE α] in
/-- A heap with room has no bound but the largest number. -/
theorem isFull_of_beyond {i : Fin n} {j : Fin d} (hrange : s.SplitsInRange q.point T.data)
    (hbeyond : ¬ s.Reaches (heap.worst.getD Scalar.largest) (q.point.get j - T.data.entry i j)) :
    heap.isFull = true := by
  by_contra hroom
  rw [BoundedHeap.worst, if_neg hroom] at hbeyond
  exact hbeyond (hrange i j)

/-- Two halves searched one after the other, where the second one may be left out. -/
theorem fills_halves {fuel first second : ℕ} {i : Fin n} {j : Fin d}
    (hfirst : ∃ heap', T.nearestInto s q fuel first heap = .ok heap' ∧
      T.Fills s q rows heap heap')
    (hsecond : ∀ heap, ∃ heap', T.nearestInto s q fuel second heap = .ok heap' ∧
      T.Fills s q rows' heap heap') :
    ∃ heap', ((T.nearestInto s q fuel first heap).bind fun heap =>
      if s.Reaches (heap.worst.getD Scalar.largest) (q.point.get j - T.data.entry i j) then
        T.nearestInto s q fuel second heap
      else .ok heap) = .ok heap' ∧ T.Fills s q (rows ++ rows') heap heap' := by
  obtain ⟨between, hrun, hfills⟩ := hfirst
  rw [hrun, Except.bind]
  by_cases hnear : s.Reaches (between.worst.getD Scalar.largest) (q.point.get j - T.data.entry i j)
  · rw [if_pos hnear]
    obtain ⟨heap', hrun', hfills'⟩ := hsecond between
    exact ⟨heap', hrun', hfills.trans hfills'⟩
  · rw [if_neg hnear]
    exact ⟨between, rfl, hfills.trans (fills_skip fun hrange => isFull_of_beyond hrange hnear)⟩

/-- The walk from a node ends, and it fills the heap with rows below the node. -/
theorem nearestInto_fills {size id : ℕ} (hspans : T.Spans size id rows) (fuel : ℕ)
    (hfuel : size ≤ fuel) (heap : BoundedHeap (Fin n) α) :
    ∃ heap', T.nearestInto s q fuel id heap = .ok heap' ∧ T.Fills s q rows heap heap' := by
  induction hspans generalizing fuel heap with
  | @leaf id v rows lookup split range =>
    obtain ⟨fuel, rfl⟩ := Nat.exists_eq_succ_of_ne_zero (Nat.ne_zero_of_lt hfuel)
    by_cases hout : (heap.isFull &&
        s.overlap q.point (heap.worst.getD Scalar.largest) v.box = .outside) = true
    · exact ⟨heap, nearestInto_leftOut lookup hout fuel,
        fills_skip fun _ => (Bool.and_eq_true_iff.1 hout).1⟩
    · refine ⟨_, ?_, fills_foldl rows heap⟩
      rw [nearestInto, lookup]
      dsimp only
      rw [if_neg hout, split, range]
  | @inner id left right sizeLeft sizeRight v point before after lookup split _ _ ihleft ihright =>
    obtain ⟨fuel, rfl⟩ := Nat.exists_eq_succ_of_ne_zero (Nat.ne_zero_of_lt (by omega : 0 < fuel))
    by_cases hout : (heap.isFull &&
        s.overlap q.point (heap.worst.getD Scalar.largest) v.box = .outside) = true
    · exact ⟨heap, nearestInto_leftOut lookup hout fuel,
        fills_skip fun _ => (Bool.and_eq_true_iff.1 hout).1⟩
    · have hmiddle : ([point] ++ (before ++ after)).Perm (before ++ point :: after) := by
        rw [List.singleton_append]
        exact List.perm_middle.symm
      rw [nearestInto_inner lookup split hout]
      dsimp only
      by_cases hdiff : q.point.get v.dim - T.data.entry point v.dim < Scalar.zero
      · rw [if_pos hdiff, if_pos hdiff]
        obtain ⟨heap', hrun, hfills⟩ := fills_halves (ihleft fuel (by omega) _)
          (ihright fuel (by omega))
        exact ⟨heap', hrun, ((fills_offer heap point).trans hfills).perm hmiddle⟩
      · rw [if_neg hdiff, if_neg hdiff]
        obtain ⟨heap', hrun, hfills⟩ := fills_halves (ihright fuel (by omega) _)
          (ihleft fuel (by omega))
        refine ⟨heap', hrun, ((fills_offer heap point).trans hfills).perm (.trans ?_ hmiddle)⟩
        exact List.perm_append_comm.append_left [point]

/-! ## The answer -/

omit [Neg α] [LT α] [LE α] [DecidableLT α] [DecidableLE α] in
theorem visited_map_fst : (T.visited s q rows).map (·.1) = rows.filter q.admits := by
  rw [visited, List.map_map]
  exact List.map_id _

/-- A walk from the root with an empty heap ends with different candidates. -/
theorem nearestInto_found (s : Search α n) (q : Probe α n d) (hrows : rows.Perm (List.finRange n))
    (hspans : T.Spans T.nodes.size 0 rows) (hk : k ≤ (candidates q.self).length) :
    ∃ heap, T.nearestInto s q T.nodes.size 0 (.empty k) = .ok heap ∧ ∃ found : List (Fin n),
      heap.sorted = found.map (fun i => (i, s.distanceTo T.data q i)) ∧ found.Nodup ∧
      (∀ i ∈ found, q.self ≠ some i) ∧ found.length ≤ k ∧
      (s.SplitsInRange q.point T.data → found.length = k) := by
  obtain ⟨heap, hrun, h⟩ := nearestInto_fills (s := s) (q := q) hspans _ le_rfl (.empty k)
  have hcapacity : heap.capacity = k := h.capacity
  have hsorted : heap.sorted.Perm heap.entries.toList := StableSort.sort_perm _ _
  have hlength : (heap.sorted.map (·.1)).length = heap.entries.size := by
    rw [List.length_map, hsorted.length_eq, Array.length_toList]
  have hle : heap.entries.size ≤ k := hcapacity ▸ h.bounded (Nat.zero_le _)
  have hall : (T.visited s q rows ++ []).Perm (T.visited s q (List.finRange n)) := by
    rw [List.append_nil]
    exact visited_perm hrows
  obtain ⟨l, hl, hsub⟩ := hsorted.subperm_right.2 (h.subperm.trans hall.subperm)
  have hread : ∀ e ∈ heap.sorted, q.admits e.1 = true ∧ (e.1, s.distanceTo T.data q e.1) = e := by
    intro e he
    obtain ⟨i, hi, rfl⟩ := List.mem_map.1 (hsub.subset (hl.mem_iff.2 he))
    exact ⟨(List.mem_filter.1 hi).2, rfl⟩
  refine ⟨heap, hrun, heap.sorted.map (·.1), ?_, ?_, fun i hi => ?_, hlength.trans_le hle,
    fun hrange => hlength.trans (hle.antisymm ?_)⟩
  · rw [List.map_map]
    exact (List.map_id _).symm.trans (List.map_congr_left fun e he => (hread e he).2.symm)
  · have hfst := hsub.map (·.1)
    rw [visited_map_fst] at hfst
    exact (hl.map _).nodup_iff.1 (hfst.nodup ((List.nodup_finRange n).filter _))
  · obtain ⟨e, he, rfl⟩ := List.mem_map.1 hi
    exact of_decide_eq_true (hread e he).1
  · rcases h.room hrange with hfull | hsize
    · exact hcapacity ▸ of_decide_eq_true hfull
    · have hcount : (T.visited s q rows).length = (candidates q.self).length :=
        (visited_perm hrows).length_eq.trans (List.length_map _)
      rw [hsize, hcount]
      exact Nat.le_add_right_of_le hk

/-- Every query gets some of its candidates, and as many as are asked for if its splits are in range. -/
theorem nearestNeighbours_finds {m : Metric} {p : α} (hm : Search.checkMetric m p = .ok ())
    (hrows : rows.Perm (List.finRange n)) (hspans : T.Spans T.nodes.size 0 rows)
    {query : Option (Grid α)} (hquery : Search.checkQuery d query = .ok ())
    (hcount : checkCount (if query.isNone then n - 1 else n) k = .ok ())
    {probe : Fin (queryCount n query) → Probe α n d}
    (hprobes : T.probes (.settings T.data m p) query = .ok (Vector.ofFn probe))
    (hk : ∀ q, k ≤ (candidates (probe q).self).length) :
    ∃ t : NeighbourTable α (queryCount n query) k, T.nearestNeighbours query k m p = .ok t ∧
      ∀ q, ∃ found, t.Finds q found (fun i => (probe q).self ≠ some i) (fun i =>
          m.externalDistance p ((Search.settings T.data m p).distanceTo T.data (probe q) i)) ∧
        ((Search.settings T.data m p).SplitsInRange (probe q).point T.data → found.length = k) := by
  choose heap hrun found hsorted hnodup hadmits hle hfull using
    fun q => nearestInto_found (.settings T.data m p) (probe q) hrows hspans (hk q)
  refine ⟨_, nearestNeighbours_eq hm hquery hcount hprobes hrun,
    fun q => ⟨found q, ⟨hnodup q, hadmits q, hle q, fun slot => ?_⟩, hfull q⟩⟩
  simp only [NeighbourTable.ofLists, Vector.get_map, Vector.get_ofFn, hsorted, List.map_map,
    List.getElem?_map, Option.map_map]
  exact ⟨rfl, rfl⟩

end KdTree

variable [DecidableLE α]

/-- **Rows are filled.** A tree that is built by any selection, whatever the numbers are, answers each
query with different candidates and the distances that are computed for them, and with as many as are
asked for if no split of the query is beyond the largest number. -/
theorem rows_filled (S : Selection (Fin n) α) (hn : 0 < n) (hd : 0 < d) (M : Matrix α n d)
    {leafSize : ℕ} (hleaf : Memory.wrap (2 * leafSize) ≠ 0) {m : Metric} {p : α}
    (hm : Search.checkMetric m p = .ok ()) (hk : 0 < k) :
    let s := Search.settings M m p
    ∃ T, KdTree.buildWith S M leafSize = .ok T ∧
      (∀ (r : ℕ) (Q : Matrix α r d), 0 < r → k ≤ n → ∃ t : NeighbourTable α r k,
        T.nearestNeighbours (some (.ofMatrix Q)) k m p = .ok t ∧
        ∀ q, ∃ found, t.Finds q found (fun _ => True) (fun i =>
            m.externalDistance p (s.distanceTo M (KdTree.pointProbe s (Q.get q)) i)) ∧
          (s.SplitsInRange (Q.get q) M → found.length = k)) ∧
      (k ≤ n - 1 → ∃ t : NeighbourTable α n k, T.nearestNeighbours none k m p = .ok t ∧
        ∀ q, ∃ found, t.Finds q found (fun i => i ≠ q) (fun i =>
            m.externalDistance p (s.distanceTo M (T.selfProbe s q) i)) ∧
          (s.SplitsInRange (M.get q) M → found.length = k)) := by
  intro s
  obtain ⟨T, hT, rfl, rows, hrows, hspans⟩ := KdTree.buildWith_spans S hn hd M hleaf
  refine ⟨T, hT, fun r Q hr hle => ?_, fun hle => ?_⟩
  · have hlen : k ≤ (candidates (none : Option (Fin n))).length := by rwa [candidates_length]
    obtain ⟨t, ht, hfinds⟩ := KdTree.nearestNeighbours_finds hm hrows hspans
      (Search.checkQuery_points hr Q) (checkCount_ok hk hle) (T.probes_points s Q) fun _ => hlen
    refine ⟨t, ht, fun q => ?_⟩
    obtain ⟨found, h, hfull⟩ := hfinds q
    exact ⟨found, ⟨h.nodup, fun _ _ => trivial, h.length_le, h.slots⟩, hfull⟩
  · have hquery : Search.checkQuery d (none : Option (Grid α)) = .ok () := rfl
    have hlen (q : Fin n) : k ≤ (candidates (some q)).length := by rwa [candidates_length]
    obtain ⟨t, ht, hfinds⟩ := KdTree.nearestNeighbours_finds hm hrows hspans hquery
      (checkCount_ok hk hle) rfl hlen
    refine ⟨t, ht, fun q => ?_⟩
    obtain ⟨found, h, hfull⟩ := hfinds q
    exact ⟨found, ⟨h.nodup, fun i hi heq => h.candidate i hi (congrArg some heq.symm),
      h.length_le, h.slots⟩, hfull⟩

/-- All of three rows are asked for near them. -/
theorem rows_filled_three_rows :
    let M : Matrix Float 3 1 := #v[#v[2], #v[1], #v[0]]
    (Memory.wrap (2 * 1) ≠ 0 ∧ Search.checkMetric .euclidean (2 : Float) = .ok ()) ∧
    ∃ (T : KdTree Float 3 1) (t : NeighbourTable Float 1 3),
      KdTree.buildWith (.bySorting _ _) M 1 = .ok T ∧
      T.nearestNeighbours (some (.ofMatrix (#v[#v[5]] : Matrix Float 1 1))) 3 .euclidean 2 = .ok t ∧
      ∃ found : List (Fin 3), found.length = 3 ∧ found.Nodup ∧
        ∀ s : Fin 3, (t.indices.get 0).get s = (found[s.val]?.map (·.val)).getD 0 := by
  intro M
  have hleaf : Memory.wrap (2 * 1) ≠ 0 := by decide
  have hm : Search.checkMetric .euclidean (2 : Float) = .ok () := rfl
  have hrange : (Search.settings M .euclidean 2).SplitsInRange #v[5] M := by decide +kernel
  obtain ⟨T, hT, hpoints, -⟩ := rows_filled (.bySorting _ _) (by decide) (by decide) M hleaf hm
    (by decide : 0 < 3)
  obtain ⟨t, ht, hfinds⟩ := hpoints 1 #v[#v[5]] Nat.one_pos le_rfl
  obtain ⟨found, h, hfull⟩ := hfinds 0
  exact ⟨⟨hleaf, hm⟩, T, t, hT, ht, found, hfull hrange, h.nodup, fun s => (h.slots s).1⟩

theorem eq_ok_of_toOption {ε β : Type} {x : Except ε β} {y : β} (h : x.toOption = some y) :
    x = .ok y := by
  cases x with
  | error e => cases h
  | ok z => exact congrArg Except.ok (Option.some.inj h)

/-- The square of the distance of the query from the first split is infinite, which is beyond the largest
number: the row at zero is left out although the heap has room, and its slot shows row zero. -/
theorem rows_left_open :
    let M : Matrix Float 3 1 := #v[#v[2], #v[1], #v[0]]
    let Q : Matrix Float 1 1 := #v[#v[1e200]]
    (∀ i, (M.entry i 0).isFinite = true) ∧ (Q.entry 0 0).isFinite = true ∧
    Memory.wrap (2 * 1) ≠ 0 ∧ Search.checkMetric .euclidean (2 : Float) = .ok () ∧
    ∃ (T : KdTree Float 3 1) (t : NeighbourTable Float 1 3),
      KdTree.buildWith (.bySorting _ _) M 1 = .ok T ∧
      T.nearestNeighbours (some (.ofMatrix Q)) 3 .euclidean 2 = .ok t ∧
      t.indices = #v[#v[1, 0, 0]] ∧ t.distances = #v[#v[1 / 0, 1 / 0, 0]] ∧
      ∀ (found : List (Fin 3)) candidate dist, t.Finds 0 found candidate dist → found.length ≠ 3 := by
  intro M Q
  have hfinite : (∀ i, (M.entry i 0).isFinite = true) ∧ (Q.entry 0 0).isFinite = true := by
    decide +kernel
  let search (T : KdTree Float 3 1) : Outcome (NeighbourTable Float 1 3) :=
    T.nearestNeighbours (some (.ofMatrix Q)) 3 .euclidean 2
  have hrun : ((KdTree.buildWith (.bySorting _ _) M 1).toOption.bind fun T =>
      (search T).toOption.map fun t => (t.indices, t.distances)) =
        some (#v[#v[1, 0, 0]], #v[#v[1 / 0, 1 / 0, 0]]) := by
    decide +kernel
  obtain ⟨T, hT, hrun⟩ := Option.bind_eq_some_iff.1 hrun
  obtain ⟨t, ht, hrun⟩ := Option.map_eq_some_iff.1 hrun
  obtain ⟨hindices, hdistances⟩ := Prod.mk.inj hrun
  refine ⟨hfinite.1, hfinite.2, by decide, rfl, T, t, eq_ok_of_toOption hT,
    eq_ok_of_toOption ht, hindices, hdistances, fun found candidate dist h hlen => ?_⟩
  -- the last two slots show the same row
  have hslot (s : Fin 3) (hs : s.val < found.length) : (found[s.val]).val = #v[1, 0, 0].get s := by
    have hread := (h.slots s).1
    rw [hindices, List.getElem?_eq_getElem hs] at hread
    exact hread.symm
  have hone : 1 < found.length := by omega
  have htwo : 2 < found.length := by omega
  have hsame : found[1] = found[2] := Fin.ext ((hslot 1 hone).trans (hslot 2 htwo).symm)
  exact absurd ((h.nodup.getElem_inj_iff).1 hsame) (by decide)

end Proximity
