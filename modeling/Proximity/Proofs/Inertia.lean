import Proximity.Proofs.Convergence

/-!
# The inertia never rises

Labels of nearer centres lower the sum of the squared distances to the centres, and so do centres that
move to the centroids of their clusters. A round does the one and then the other, for all samples at
once or for one after another, so that the inertia after it is at most the one before. Clusters
without members do not count: their centres lie at the origin, and a sample that is nearer to the
origin than to its own centre lowers the inertia when it goes there.

1. `RunState.inertia`: the inertia of a state. `inertia_relabelled_le` and `inertia_recentred_le`: labels
   change, or centres move.
2. `MacQueen.visit_inertia_le`: a sample is visited.
3. `Method.round_inertia_le`, `Method.relabel_inertia_le`: a round, and the labelling after the rounds.
4. `Method.inertia_never_rises`.
-/

namespace Proximity

/-- The inertia of the current labels and centres. -/
def RunState.inertia {α : Type} [Add α] [Sub α] [Mul α] [Scalar α] {n K d : ℕ} (data : Samples α n d)
    (s : RunState α n K d) : α := data.inertia s.centres.current s.labels.current

noncomputable section

variable {n K d : ℕ} [RealFormat] {data : Samples ℝ n d}

/-! ## Labels and centres -/

theorem inertia_eq (data : Samples ℝ n d) (centres : Matrix ℝ K d) (labels : Vector (Fin K) n) :
    data.inertia centres labels = ∑ i, (data.point i).sqDist (centres.get (labels.get i)) := by
  rw [Samples.inertia, sumOver_eq_sum]
  refine Finset.sum_congr rfl fun i _ => ?_
  rw [Samples.squaredDistanceTo, sumOver_eq_sum, Point.sqDist]
  refine Finset.sum_congr rfl fun k _ => ?_
  rw [Samples.point, Strided.toPoint, Vector.get_ofFn, sq]
  rfl

theorem Centred.inertia_eq {labels : Vector (Fin K) n} {centres : Matrix ℝ K d}
    (h : Centred data.point labels centres) :
    data.inertia centres labels = within data.point labels := by
  rw [Proximity.inertia_eq, h.within_eq]

/-- Samples that go to nearest centres do not raise the inertia. -/
theorem inertia_relabelled_le {labels' : Vector (Fin K) n} {centres : Matrix ℝ K d}
    (h : ∀ i, Nearest (data.point i) centres (labels'.get i)) (labels : Vector (Fin K) n) :
    data.inertia centres labels' ≤ data.inertia centres labels := by
  rw [inertia_eq, inertia_eq]
  exact Finset.sum_le_sum fun i _ => Point.dist_le_iff.1 (h i _)

/-- Centres that go to the centroids do not raise the inertia. -/
theorem inertia_recentred_le {labels : Vector (Fin K) n} {centres' : Matrix ℝ K d}
    (h : Centred data.point labels centres') (centres : Matrix ℝ K d) :
    data.inertia centres' labels ≤ data.inertia centres labels := by
  rw [h.inertia_eq, inertia_eq]
  exact within_le_sum labels centres

/-! ## Visits -/

namespace MacQueen

theorem Synced.inertia_le {s t : RunState ℝ n K d} (hs : Synced data s) (ht : Synced data t)
    (h : t = s ∨
      potential data.point t.labels.current < potential data.point s.labels.current) :
    t.inertia data ≤ s.inertia data := by
  rcases h with rfl | hlt
  · exact le_rfl
  · have hs' : s.inertia data = within data.point s.labels.current := hs.centres.inertia_eq
    have ht' : t.inertia data = within data.point t.labels.current := ht.centres.inertia_eq
    rw [hs', ht']
    rcases potential_lt_iff.1 hlt with hlt | ⟨heq, -⟩
    · exact hlt.le
    · exact heq.le

variable [Clustered n K] (w : Lanes.Width)

/-- A sample that is only labelled does not raise the inertia. -/
theorem labelling_visit_inertia_le (s : RunState ℝ n K d) (i : Fin n) :
    (visit w data false s i).inertia data ≤ s.inertia data := by
  have : Positive K := Clustered.positive i
  have hfirst := closest_firstNearest (w.lanes (Scalar.bytes ℝ)) (data.sample i) s.centres.current
  unfold visit
  simp only [Bool.false_eq_true, if_false]
  generalize closest (w.lanes (Scalar.bytes ℝ)) (data.sample i) s.centres.current = b at hfirst ⊢
  split
  · exact le_rfl
  · show data.inertia s.centres.current (s.labels.current.put i b) ≤
      data.inertia s.centres.current s.labels.current
    rw [inertia_eq, inertia_eq]
    refine Finset.sum_le_sum fun j _ => ?_
    rw [Vector.get_put]
    split
    next hij => exact hij ▸ Point.dist_le_iff.1 (hfirst.nearest _)
    next => exact le_rfl

/-- A visit does not raise the inertia. Where it moves centres they have to be the centroids before. -/
theorem visit_inertia_le {update : Bool} {s : RunState ℝ n K d} (h : update = true → Synced data s)
    (i : Fin n) : (visit w data update s i).inertia data ≤ s.inertia data := by
  cases update with
  | false => exact labelling_visit_inertia_le w s i
  | true =>
    obtain ⟨hsync, hvisit⟩ := visit_spec w (h rfl) i
    exact (h rfl).inertia_le hsync (hvisit.imp_left And.left)

/-- A further sample of a round does not raise the inertia. -/
theorem sweep_inertia_le (update : Bool) {s : RunState ℝ n K d} (h : Synced data s)
    (seen : List (Fin n)) (i : Fin n) :
    (sweep w data update s.swap (seen ++ [i])).inertia data ≤
      (sweep w data update s.swap seen).inertia data := by
  have hnext : sweep w data update s.swap (seen ++ [i]) =
      visit w data update (sweep w data update s.swap seen) i := by
    rw [sweep, List.foldl_append]
    rfl
  rw [hnext]
  refine visit_inertia_le w (fun hupdate => ?_) i
  subst hupdate
  exact (visits_spec w seen h.opening).1

end MacQueen

/-! ## Rounds -/

namespace Method

variable [Clustered n K] {m : Method ℝ n K} {s : RunState ℝ n K d}

omit [Clustered n K] in
/-- A round that labels all samples and then moves all centres. -/
theorem inertia_batch_le {t : RunState ℝ n K d}
    (hlabels : ∀ i, Nearest (data.point i) s.centres.current (t.labels.current.get i))
    (hcentred : Centred data.point t.labels.current t.centres.current) :
    t.inertia data ≤ s.inertia data :=
  calc t.inertia data
      ≤ data.inertia s.centres.current t.labels.current := inertia_recentred_le hcentred _
    _ ≤ s.inertia data := inertia_relabelled_le hlabels _

theorem round_inertia_le (h : m.Ready data s) :
    (m.round data s).2.inertia data ≤ s.inertia data := by
  have hcentred := (round_settled h).centred
  cases m with
  | lloyd w =>
    rw [lloyd_round] at hcentred ⊢
    exact inertia_batch_le
      (fun i => (firstNearests_spec data.point s.centres.current i).nearest) hcentred
  | elkan e => exact inertia_batch_le (fun i => (e.search_spec data s.swap h i).2) hcentred
  | macQueen w =>
    obtain ⟨hsync, hvisits⟩ := MacQueen.visits_spec w (List.finRange n) (MacQueen.Synced.opening h)
    have hle : (MacQueen.sweep w data true s.swap (List.finRange n)).inertia data ≤
        (MacQueen.opening s.swap).inertia data :=
      (MacQueen.Synced.opening h).inertia_le hsync (hvisits.imp_left And.left)
    exact hle

theorem relabel_inertia_le (h : m.Ready data s) :
    (m.relabel data s).2.inertia data ≤ s.inertia data := by
  obtain ⟨hcentres, hpicks⟩ := relabel_spec h
  unfold RunState.inertia
  rw [hcentres]
  exact inertia_relabelled_le (fun i => (hpicks i).nearest) _

/-- The states that the iterations of a run leave, the labelling after its rounds included. -/
theorem iterations_inertia (tol : ℝ) (left iteration : ℕ) (h : m.Ready data s) :
    (s :: (iterations data tol left iteration m s).map Iteration.after).Pairwise
      fun s t => t.inertia data ≤ s.inertia data := by
  induction left generalizing iteration m s with
  | zero => exact List.pairwise_singleton _ _
  | succ left ih =>
    have hround := round_inertia_le h
    have hready := (round_settled h).ready
    rcases hr : m.round data s with ⟨m', s'⟩
    rw [hr] at hround hready
    have first (rest : List (RunState ℝ n K d))
        (hrest : (s' :: rest).Pairwise fun s t => t.inertia data ≤ s.inertia data) :
        (s :: s' :: rest).Pairwise fun s t => t.inertia data ≤ s.inertia data := by
      refine List.pairwise_cons.2 ⟨fun t ht => ?_, hrest⟩
      rcases List.mem_cons.1 ht with rfl | ht
      · exact hround
      · exact (List.rel_of_pairwise_cons hrest ht).trans hround
    cases hc : s'.convergence iteration tol with
    | notConverged =>
      rw [iterations_next hr hc]
      exact first _ (ih (iteration + 1) hready)
    | labelsUnchanged =>
      rw [iterations_labels hr hc]
      exact first [] (List.pairwise_singleton _ _)
    | tolerance =>
      rw [iterations_tolerance hr hc]
      exact first [_] (List.pairwise_pair.2 (relabel_inertia_le hready))

/-- **The inertia never rises.** It is no larger after a round than before, whatever clusters lose their
members or get new ones, no larger after the labelling that follows the rounds, and no larger after
the visit of any sample in a round or labelling of MacQueen's method. So it falls along the iterations
of a run, whatever ends them. -/
theorem inertia_never_rises (data : Samples ℝ n d) (s : RunState ℝ n K d) :
    (∀ m : Method ℝ n K,
        Antitone (fun t => (m.afterRounds data s t).2.inertia data) ∧
        (∀ t, ((m.afterRounds data s t).1.relabel data (m.afterRounds data s t).2).2.inertia data ≤
          (m.afterRounds data s t).2.inertia data) ∧
        ∀ tol limit, ((m.start data s).2 ::
          (iterations data tol limit 0 (m.start data s).1 (m.start data s).2).map
            Iteration.after).Pairwise fun s t => t.inertia data ≤ s.inertia data) ∧
      ∀ w t update seen i,
        let u := ((macQueen w : Method ℝ n K).afterRounds data s t).2
        (MacQueen.sweep w data update u.swap (seen ++ [i])).inertia data ≤
          (MacQueen.sweep w data update u.swap seen).inertia data := by
  refine ⟨fun m => ⟨?_, fun t => ?_, fun tol limit => ?_⟩, fun w t update seen i => ?_⟩
  · exact antitone_nat_of_succ_le fun t => round_inertia_le (afterRounds_ready m data s t)
  · exact relabel_inertia_le (afterRounds_ready m data s t)
  · exact iterations_inertia tol limit 0 (start_ready m data s)
  · have hmethod : ((macQueen w : Method ℝ n K).afterRounds data s t).1 = macQueen w := by
      induction t with
      | zero => rfl
      | succ t ih => rw [afterRounds_succ, ih]; rfl
    have hready := afterRounds_ready (macQueen w : Method ℝ n K) data s t
    rw [hmethod] at hready
    exact MacQueen.sweep_inertia_le w update hready seen i

omit [RealFormat] in
/-- Two samples and a centre that is far from both: its cluster loses all members in the first round
and is put at the origin, and in the second round the origin attracts the first sample. -/
theorem inertia_never_rises_emptied_cluster :
    letI := RealFormat.plain
    let data : Samples ℝ 2 1 := ⟨#v[1, 10]⟩
    let m : Method ℝ 2 2 := lloyd .avx2
    let s : RunState ℝ 2 2 1 :=
      { RunState.blank 2 2 1 with centres.current := #v[#v[4], #v[100]] }
    Clustered 2 2 ∧
      (members (m.labelling data s 1) 1 = ∅ ∧
        (m.afterRounds data s 1).2.centres.current.get 1 = Point.origin ∧
        (m.labelling data s 2).get 0 = 1) ∧
      Antitone (fun t => (m.afterRounds data s t).2.inertia data) ∧
      ∀ t update seen i,
        let u := ((macQueen .avx2 : Method ℝ 2 2).afterRounds data s t).2
        (MacQueen.sweep .avx2 data update u.swap (seen ++ [i])).inertia data ≤
          (MacQueen.sweep .avx2 data update u.swap seen).inertia data := by
  let _ := RealFormat.plain
  intro data m s
  have x0 : (data.point 0).get 0 = 1 := rfl
  have x1 : (data.point 1).get 0 = 10 := rfl
  have h1 : m.afterRounds data s 1 = (m, meanRound data s) := lloyd_round .avx2 data s
  have h2 : m.afterRounds data s 2 = (m, meanRound data (meanRound data s)) := by
    rw [afterRounds_succ, h1]
    exact lloyd_round .avx2 data (meanRound data s)
  have hlabels : (meanRound data s).labels.current = #v[0, 0] := by
    refine Vector.ext_get fun i => ?_
    have hnearest := Point.dist_le_iff.1 ((firstNearests_spec data.point s.centres.current i).nearest 0)
    have c0 : (s.centres.current.get 0).get 0 = 4 := rfl
    have c1 : (s.centres.current.get 1).get 0 = 100 := rfl
    rw [Point.sqDist_line, Point.sqDist_line, c0] at hnearest
    show (firstNearests data.point s.centres.current).get i = _
    generalize (firstNearests data.point s.centres.current).get i = l at hnearest
    fin_cases i <;> fin_cases l
    · rfl
    · norm_num [x0, c1] at hnearest
    · rfl
    · norm_num [x1, c1] at hnearest
  have hempty : members (#v[0, 0] : Vector (Fin 2) 2) 1 = ∅ := by decide
  have hall : members (#v[0, 0] : Vector (Fin 2) 2) 0 = {0, 1} := by decide
  have hcentred : Centred data.point #v[0, 0] (meanRound data s).centres.current :=
    hlabels ▸ recentre_centred _ _
  have horigin : (meanRound data s).centres.current.get 1 = Point.origin := by
    rw [hcentred, hempty, centroid_empty]
  have hback : (meanRound data (meanRound data s)).labels.current.get 0 = 1 := by
    have hnearest := Point.dist_le_iff.1
      ((firstNearests_spec data.point (meanRound data s).centres.current 0).nearest 1)
    have c0 : ((meanRound data s).centres.current.get 0).get 0 = 11 / 2 := by
      rw [hcentred, hall, centroid_get, Finset.sum_pair (by decide), x0, x1]
      norm_num
    have c1 : ((meanRound data s).centres.current.get 1).get 0 = 0 := by
      rw [horigin, Point.origin, Vector.get_replicate, scalar_zero]
    rw [Point.sqDist_line, Point.sqDist_line, x0, c1] at hnearest
    show (firstNearests data.point (meanRound data s).centres.current).get 0 = 1
    generalize (firstNearests data.point (meanRound data s).centres.current).get 0 = l at hnearest
    fin_cases l
    · norm_num [c0] at hnearest
    · rfl
  have hrises := inertia_never_rises (K := 2) data s
  refine ⟨inferInstance, ⟨?_, ?_, ?_⟩, (hrises.1 m).1, hrises.2 .avx2⟩
  · rw [labelling, h1, hlabels, hempty]
  · rw [h1, horigin]
  · rw [labelling, h2, hback]

end Method

end

end Proximity
