import Proximity.Proofs.Counters
import Proximity.Proofs.LeastColumn
import Proximity.Proofs.Tasks

/-!
# MacQueen's sweeps

A pass visits the samples in order, and the state between two visits is as consistent as that between
two passes: the counts are the sizes of the clusters, for any numbers, and in exact arithmetic the
centres are the centroids of their members.

1. `closest_eq_scan`: a visited sample looks for the first least of the distances as computed.
2. `passes` and `partway`: the state after some passes, and after some samples of one more.
3. `relabelling_keeps`: a pass that only labels leaves counts and centres alone.
4. `partway_inStep`: labels, counts and centres at every point of a pass.
-/

namespace Proximity.MacQueen

variable {α : Type} [Add α] [Sub α] [Mul α] [Div α] [Neg α] [LT α] [LE α] [DecidableLT α]
  [DecidableLE α] [BEq α] [Scalar α] {n K d : ℕ}

/-! ## The closest centre -/

/-- The distance of a sample to centre `j` as a visit computes it. -/
def visitDistance (w : Lanes.Width) (data : Samples α n d) (centres : Matrix α K d) (i : Fin n)
    (j : Fin K) : Extended α :=
  some (Lanes.squaredDistance (w.lanes (Scalar.bytes α)) (data.sample i)
    (Strided.ofVector (centres.get j)))

omit [Div α] [Neg α] [LE α] [DecidableLE α] [BEq α] in
/-- The closest centre is that of a search through the computed distances one after another. -/
theorem closest_eq_scan [Positive K] (w : Lanes.Width) (data : Samples α n d)
    (centres : Matrix α K d) (i : Fin n) :
    (closest (w.lanes (Scalar.bytes α)) (data.sample i) centres : ℕ) =
      Lanes.scan (visitDistance w data centres i) := by
  let best (c : Closest α K) : Lanes.Best α := ⟨c.distance, c.label⟩
  have step (c : Closest α K) (j : Fin K) :
      (best c).improve (visitDistance w data centres i j) j =
        best (if Extended.lt (visitDistance w data centres i j) c.distance then
          ⟨j, visitDistance w data centres i j⟩ else c) := by
    unfold Lanes.Best.improve
    split <;> rfl
  unfold closest Lanes.scan
  rw [Fin.foldl_eq_foldl_finRange, Fin.foldl_eq_foldl_finRange]
  exact congrArg Lanes.Best.column (List.foldl_hom best step).symm

/-! ## Passes -/

variable [Clustered n K] (w : Lanes.Width) (data : Samples α n d)

/-- The state after the start and `t` passes that move the centres. -/
def passes (t : ℕ) (s : RunState α n K d) : RunState α n K d :=
  (fun s => step w data true s.swap)^[t] (start w data s)

/-- The state of a pass after its first `m` samples, from the state that the last pass has left. -/
def partway (update : Bool) (s : RunState α n K d) (m : ℕ) : RunState α n K d :=
  sweep w data update s.swap ((List.finRange n).take m)

omit [LE α] [DecidableLE α] in
theorem passes_succ (t : ℕ) (s : RunState α n K d) :
    passes w data (t + 1) s = step w data true (passes w data t s).swap :=
  Function.iterate_succ_apply' _ _ _

omit [Neg α] [LE α] [DecidableLE α] [BEq α] in
theorem partway_succ (update : Bool) (s : RunState α n K d) (i : Fin n) :
    partway w data update s (i + 1) = visit w data update (partway w data update s i) i := by
  have htake : (List.finRange n).take (i + 1) = (List.finRange n).take i ++ [i] := by
    rw [List.take_add_one, List.getElem?_eq_getElem (by simp), List.getElem_finRange]
    rfl
  rw [partway, htake, sweep, List.foldl_append]
  rfl

omit [LE α] [DecidableLE α] in
theorem passes_counted (t : ℕ) (s : RunState α n K d) : Counted (passes w data t s) := by
  induction t with
  | zero => exact start_counted w data s
  | succ t ih =>
    rw [passes_succ]
    exact step_counted ih

omit [Neg α] [LE α] [DecidableLE α] [BEq α] in
theorem partway_counted {s : RunState α n K d} (h : Counted s) (m : ℕ) :
    Counted (partway w data true s m) :=
  visits_counted (s := opening s.swap) h _

omit [Neg α] [LE α] [DecidableLE α] [BEq α] in
/-- A visit labels its sample by the closest centre as the centres are before it. -/
theorem visit_label (update : Bool) (s : RunState α n K d) (i : Fin n) :
    have := Clustered.positive (K := K) i
    (visit w data update s i).labels.current.get i =
      closest (w.lanes (Scalar.bytes α)) (data.sample i) s.centres.current := by
  intro
  unfold visit
  dsimp only
  split
  next h => exact h
  next =>
    split
    · exact Vector.get_put_self _ _ _
    · exact Vector.get_put_self _ _ _

omit [Neg α] [LE α] [DecidableLE α] [BEq α] in
/-- A pass that only labels leaves counts and centres alone at every point. -/
theorem relabelling_keeps (s : RunState α n K d) (m : ℕ) :
    (partway w data false s m).counts = s.counts ∧
      (partway w data false s m).centres = ⟨s.centres.current, s.centres.current⟩ := by
  have hopening : (opening s.swap).counts = s.counts ∧
      (opening s.swap).centres = ⟨s.centres.current, s.centres.current⟩ := ⟨rfl, rfl⟩
  refine List.foldlRecOn (motive := fun t : RunState α n K d => t.counts = s.counts ∧
    t.centres = ⟨s.centres.current, s.centres.current⟩)
    ((List.finRange n).take m) (visit w data false) hopening fun t ht i _ => ?_
  unfold visit
  dsimp only
  split
  next => exact ht
  next => exact ht

/-- The labels of all samples by the centres as they are, after which both are exchanged. -/
theorem relabel_eq (s : RunState α n K d) :
    ((Method.macQueen w).relabel data s).2 = (partway w data false s n).swapCentres := by
  have htake : (List.finRange n).take n = List.finRange n := List.take_of_length_le (by simp)
  rw [partway, htake]
  rfl

/-! ## Exact arithmetic -/

section Exact

variable [RealFormat] (data : Samples ℝ n d)

theorem passes_synced (t : ℕ) (s : RunState ℝ n K d) : Synced data (passes w data t s) := by
  induction t with
  | zero => exact start_synced w s
  | succ t ih =>
    rw [passes_succ]
    have hsync := (visits_spec w (List.finRange n) ih.opening).1
    -- the shift of a pass is kept in place of the previous centres
    exact ⟨hsync.counts, hsync.centres⟩

theorem partway_synced {s : RunState ℝ n K d} (h : Synced data s) (m : ℕ) :
    Synced data (partway w data true s m) :=
  (visits_spec w _ h.opening).1

end Exact

/-! ## Every point of a pass -/

/-- **Labels, counts and centres stay in step.** After the start, some passes and the first samples of
one more, the counts are the sizes of the clusters, whatever the numbers are: they add up to the number
of samples, and the cluster that a sample is in has one to give away. A sample gets the first of the
centres with a least distance as computed, and labels alone leave counts and centres as they were. In
exact arithmetic the centres are the centroids, the origin for a cluster without members, and a sample
gets the first of its nearest centres as the samples before it have left them. -/
theorem partway_inStep :
    (∀ {α : Type} [Add α] [Sub α] [Mul α] [Div α] [Neg α] [LT α] [LE α] [DecidableLT α]
      [DecidableLE α] [BEq α] [Scalar α] {n K d : ℕ} [Clustered n K] (w : Lanes.Width)
      (data : Samples α n d) (initial : RunState α n K d) (t m : ℕ),
      let before := passes w data t initial
      let now := partway w data true before m
      (∀ l, now.counts.get l = (members now.labels.current l).card) ∧
        ∑ l, now.counts.get l = n ∧
        (∀ i, 0 < now.counts.get (now.labels.current.get i)) ∧
        (∀ [RoundedOrder α] (update : Bool) (i : Fin n), Lanes.FirstLeast
          (visitDistance w data (partway w data update before i).centres.current i)
          ((partway w data update before (i + 1)).labels.current.get i)) ∧
        (partway w data false before m).counts = before.counts ∧
        (partway w data false before m).centres.current = before.centres.current ∧
        ((Method.macQueen w).relabel data before).2.counts = before.counts ∧
        ((Method.macQueen w).relabel data before).2.centres.current = before.centres.current) ∧
    ∀ [RealFormat] {n K d : ℕ} [Clustered n K] (w : Lanes.Width) (data : Samples ℝ n d)
      (initial : RunState ℝ n K d) (t m : ℕ),
      let before := passes w data t initial
      let now := partway w data true before m
      (∀ l, now.centres.current.get l = centroid data.point (members now.labels.current l)) ∧
        (∀ l, members now.labels.current l = ∅ → now.centres.current.get l = Point.origin) ∧
        ∀ (update : Bool) (i : Fin n), FirstNearest (data.point i)
          (partway w data update before i).centres.current
          ((partway w data update before (i + 1)).labels.current.get i) := by
  constructor
  · intro α _ _ _ _ _ _ _ _ _ _ _ n K d _ w data initial t m before now
    have counted : Counted now := partway_counted w data (passes_counted w data t initial) m
    refine ⟨counted, ?_, fun i => ?_, fun {_} update i => ?_, ?_, ?_, ?_, ?_⟩
    · rw [Finset.sum_congr rfl fun l _ => counted l]
      exact Assignment.sum_card_members now.labels.current
    · rw [counted]
      exact Finset.card_pos.2 ⟨i, mem_members.2 rfl⟩
    · have := Clustered.positive (K := K) i
      rw [partway_succ, visit_label, closest_eq_scan]
      exact Lanes.scan_firstLeast _
    · exact (relabelling_keeps w data before m).1
    · rw [(relabelling_keeps w data before m).2]
    · rw [relabel_eq]
      exact (relabelling_keeps w data before n).1
    · rw [relabel_eq, State.swapCentres, (relabelling_keeps w data before n).2]
      rfl
  · intro _ n K d _ w data initial t m before now
    have before_synced : Synced data before := passes_synced w data t initial
    have synced : Synced data now := partway_synced w data before_synced m
    refine ⟨synced.centres, fun l hl => ?_, fun update i => ?_⟩
    · rw [synced.centres l, hl, centroid_empty]
    · have := Clustered.positive (K := K) i
      rw [partway_succ, visit_label]
      exact closest_firstNearest _ _ _

theorem exists_members_eq_empty (labels : Vector (Fin 2) 1) : ∃ l, members labels l = ∅ := by
  obtain ⟨l, hl⟩ := exists_ne (labels.get 0)
  refine ⟨l, Finset.eq_empty_of_forall_notMem fun i hi => hl ?_⟩
  rw [← mem_members.1 hi, Subsingleton.elim i 0]

/-- Five samples, one of them no number, in the second pass: a sample without a distance below infinity
goes to the first cluster, and a cluster that was empty after the start has been filled. In exact
arithmetic one of two clusters of one sample is empty. -/
theorem partway_inStep_five_samples :
    (let data : Samples Float 5 1 := ⟨#v[0, 0 / 0, 5, 6, 1]⟩
      let initial : RunState Float 5 3 1 :=
        { RunState.blank 5 3 1 with centres.current := #v[#v[4], #v[5], #v[100]] }
      let before := passes .scalar data 1 initial
      let now := partway .scalar data true before 3
      let i : Fin 5 := 1
      (start .scalar data initial).counts = #v[3, 2, 0] ∧ now.counts = #v[1, 2, 2] ∧
        (partway .scalar data true before (i + 1)).labels.current.get i = 0 ∧
        (∀ l, now.counts.get l = (members now.labels.current l).card) ∧
        ∑ l, now.counts.get l = 5 ∧
        Lanes.FirstLeast
          (visitDistance .scalar data (partway .scalar data true before i).centres.current i)
          ((partway .scalar data true before (i + 1)).labels.current.get i) ∧
        ((Method.macQueen .scalar).relabel data before).2.counts = before.counts) ∧
    ∃ (_ : RealFormat) (data : Samples ℝ 1 1) (initial : RunState ℝ 1 2 1) (l : Fin 2),
      let now := partway .scalar data true (passes .scalar data 1 initial) 1
      members now.labels.current l = ∅ ∧ now.centres.current.get l = Point.origin := by
  constructor
  · intro data initial before now i
    have hstart : (start .scalar data initial).counts = #v[3, 2, 0] := by decide +kernel
    have hnow : now.counts = #v[1, 2, 2] := by decide +kernel
    have hlabel : (partway .scalar data true before (i + 1)).labels.current.get i = 0 := by
      decide +kernel
    have h := partway_inStep.1 .scalar data initial 1 3
    refine ⟨hstart, hnow, hlabel, ?_⟩
    dsimp only [before, now] at h ⊢
    exact ⟨h.1, h.2.1, h.2.2.2.1 true i, h.2.2.2.2.2.2.1⟩
  · let _ : RealFormat := RealFormat.plain
    let data : Samples ℝ 1 1 := ⟨#v[7]⟩
    obtain ⟨l, hl⟩ := exists_members_eq_empty
      (partway .scalar data true (passes .scalar data 1 (RunState.blank 1 2 1)) 1).labels.current
    have origin := (partway_inStep.2 .scalar data (RunState.blank 1 2 1) 1 1).2.1 l hl
    exact ⟨RealFormat.plain, data, RunState.blank 1 2 1, l, hl, origin⟩

end Proximity.MacQueen
