import Proximity.Engine
import Proximity.Proofs.Agreement
import Proximity.Proofs.Visits

/-!
# Runs converge, to labels of nearest centres

After a round of any of the three methods the centres are the centroids of the clusters, and the next
round keeps the labelling or lowers its potential. A run therefore meets no labelling twice, and one
with more rounds than there are labellings converges.

1. `Method.Ready` and `Method.Settled`: what a round relies on, and what it leaves.
2. `round_lowers` and `round_nearest`: a round that changes labels, and one that does not.
3. `afterRounds`: the rounds without the test, and `rounds_cases`, which finds a run among them.
4. `labellings_never_recur` and `converged_consistent`.
-/

namespace Proximity

noncomputable section

variable {n K d : ℕ} [RealFormat] {data : Samples ℝ n d}

theorem recentre_centred (s : RunState ℝ n K d) (labels : Vector (Fin K) n) :
    Centred data.point labels
      (s.recentre (Totals.ofLabels data.point labels)).centres.current := by
  intro l
  refine Vector.ext_get fun k => ?_
  show ((Vector.zipWith (fun x (c : ℕ) => Point.divideBy x (Scalar.ofNat c : ℝ)) _ _).get l).get k = _
  rw [Vector.get_zipWith, Point.divideBy, Vector.get_map, Vector.get_map, ofLabels_sums,
    ofLabels_counts, centroid_get, scalar_ofNat]
  split
  next hempty => rw [Finset.card_eq_zero.1 hempty, Finset.sum_empty, zero_div, zero_div]
  next => rfl

namespace Method

/-! ## One round -/

/-- What a round of a method relies on: Elkan's bounds, and MacQueen's counts and centres. -/
def Ready (data : Samples ℝ n d) (m : Method ℝ n K) (s : RunState ℝ n K d) : Prop :=
  match m with
  | lloyd _ => True
  | elkan e => e.bounds.Sound data s.centres.current s.labels.current
  | macQueen _ => MacQueen.Synced data s

/-- What a round of a method leaves. -/
structure Settled (data : Samples ℝ n d) (m : Method ℝ n K) (s : RunState ℝ n K d) : Prop where
  ready : m.Ready data s
  centred : Centred data.point s.labels.current s.centres.current

/-- Elkan's method takes any nearest centre, the others take the first one. -/
def Picks (m : Method ℝ n K) (x : Point ℝ d) (centres : Matrix ℝ K d) (l : Fin K) : Prop :=
  match m with
  | elkan _ => Nearest x centres l
  | _ => FirstNearest x centres l

theorem Picks.nearest {m : Method ℝ n K} {x : Point ℝ d} {centres : Matrix ℝ K d} {l : Fin K}
    (h : m.Picks x centres l) : Nearest x centres l := by
  cases m with
  | elkan e => exact h
  | lloyd w => exact FirstNearest.nearest h
  | macQueen w => exact FirstNearest.nearest h

theorem Picks.firstNearest {m : Method ℝ n K} {x : Point ℝ d} {centres : Matrix ℝ K d} {l : Fin K}
    (hm : ∀ e, m ≠ elkan e) (h : m.Picks x centres l) : FirstNearest x centres l := by
  cases m with
  | elkan e => exact absurd rfl (hm e)
  | lloyd w => exact h
  | macQueen w => exact h

variable [Clustered n K]

theorem picks_start (m : Method ℝ n K) (s : RunState ℝ n K d) :
    (m.start data s).1.Picks (d := d) = m.Picks := by
  cases m <;> rfl

theorem picks_round (m : Method ℝ n K) (s : RunState ℝ n K d) :
    (m.round data s).1.Picks (d := d) = m.Picks := by
  cases m <;> rfl

theorem start_ready (m : Method ℝ n K) (data : Samples ℝ n d) (s : RunState ℝ n K d) :
    (m.start data s).1.Ready data (m.start data s).2 := by
  cases m with
  | lloyd w => exact trivial
  | elkan e => exact (e.start_sound data s).1
  | macQueen w => exact MacQueen.start_synced w s

theorem round_previous (m : Method ℝ n K) (s : RunState ℝ n K d) :
    (m.round data s).2.labels.previous = s.labels.current := by
  cases m with
  | lloyd w => rw [lloyd_round]; rfl
  | elkan e => rfl
  | macQueen w =>
    show (MacQueen.sweep w data true s.swap (List.finRange n)).labels.previous = s.labels.current
    unfold MacQueen.sweep
    exact (foldl_list_invariant (fun t : RunState ℝ n K d => t.labels.previous = s.labels.current)
      (fun _ _ => True) (fun t i ht => by
        refine ⟨?_, trivial, fun _ _ => trivial⟩
        unfold MacQueen.visit
        simp only [if_true]
        split
        · exact ht
        · exact ht) (List.finRange n) (MacQueen.opening s.swap) rfl).1

/-- A state whose centres move at once ends where the centroids of its labels are. -/
theorem settled_elkan {e : Elkan ℝ n K} {s : RunState ℝ n K d}
    (h : (elkan e).Ready data s) :
    ((elkan e).round data s).1.Settled data ((elkan e).round data s).2 := by
  refine ⟨(e.step_sound data s.swap h).1, ?_⟩
  show Centred data.point _ (e.step data true s.swap).2.centres.current
  rw [Elkan.step_true]
  exact recentre_centred _ _

theorem round_settled {m : Method ℝ n K} {s : RunState ℝ n K d} (h : m.Ready data s) :
    (m.round data s).1.Settled data (m.round data s).2 := by
  cases m with
  | lloyd w =>
    rw [lloyd_round]
    exact ⟨trivial, recentre_centred _ _⟩
  | elkan e => exact settled_elkan h
  | macQueen w =>
    have hsync := (MacQueen.visits_spec w (List.finRange n) (MacQueen.Synced.opening h)).1
    exact ⟨⟨hsync.counts, hsync.centres⟩, hsync.centres⟩

/-- A round keeps the labelling or lowers its potential. -/
theorem round_lowers {m : Method ℝ n K} {s : RunState ℝ n K d} (h : m.Settled data s) :
    (m.round data s).2.labels.current = s.labels.current ∨
      potential data.point (m.round data s).2.labels.current <
        potential data.point s.labels.current := by
  cases m with
  | lloyd w =>
    rw [lloyd_round]
    have hfirst := firstNearests_spec data.point s.centres.current
    exact relabelled_lowers h.centred (fun i => (hfirst i).nearest) fun i => (hfirst i).first _
  | elkan e =>
    have hsearch := fun i => (e.search_spec data s.swap h.ready i).2
    exact relabelled_lowers h.centred hsearch fun i hi =>
      (e.search_keeps data s.swap h.ready hi).le
  | macQueen w =>
    rcases (MacQueen.visits_spec w (List.finRange n) (MacQueen.Synced.opening h.ready)).2 with
      ⟨heq, -⟩ | hlt
    · exact Or.inl (congrArg (·.labels.current) heq)
    · exact Or.inr hlt

/-- A round that keeps the labelling finds every sample at a nearest centre. -/
theorem round_nearest {m : Method ℝ n K} {s : RunState ℝ n K d} (h : m.Settled data s)
    (heq : (m.round data s).2.labels.current = s.labels.current) (i : Fin n) :
    m.Picks (data.point i) (m.round data s).2.centres.current
      ((m.round data s).2.labels.current.get i) := by
  -- equal labels have equal centroids, so that the centres have not moved either
  have hcentres : (m.round data s).2.centres.current = s.centres.current :=
    (heq ▸ (round_settled h.ready).centred).unique h.centred
  rw [hcentres]
  cases m with
  | lloyd w =>
    rw [lloyd_round]
    exact firstNearests_spec data.point s.centres.current i
  | elkan e => exact (e.search_spec data s.swap h.ready i).2
  | macQueen w =>
    rcases (MacQueen.visits_spec w (List.finRange n) (MacQueen.Synced.opening h.ready)).2 with
      ⟨-, hfirst⟩ | hlt
    · rw [heq]
      exact hfirst i (List.mem_finRange i)
    · exact absurd (congrArg (potential data.point) heq) hlt.ne

/-- Labelling by the centres as they are gives every sample a nearest one. -/
theorem relabel_spec {m : Method ℝ n K} {s : RunState ℝ n K d} (h : m.Ready data s) :
    (m.relabel data s).2.centres.current = s.centres.current ∧
      ∀ i, m.Picks (data.point i) s.centres.current
        ((m.relabel data s).2.labels.current.get i) := by
  cases m with
  | lloyd w =>
    rw [lloyd_relabel]
    exact ⟨rfl, firstNearests_spec data.point s.centres.current⟩
  | elkan e => exact ⟨rfl, fun i => (e.search_spec data s.swap h i).2⟩
  | macQueen w =>
    obtain ⟨hcentres, hfirst⟩ := MacQueen.labelling_visits w data (List.finRange n)
      (MacQueen.opening s.swap)
    exact ⟨congrArg Pair.previous hcentres, fun i => hfirst i (List.mem_finRange i)⟩

/-! ## The rounds of a run -/

/-- The method and the state after the start and some rounds, whatever the test says. -/
def afterRounds (m : Method ℝ n K) (data : Samples ℝ n d) (s : RunState ℝ n K d) :
    ℕ → Method ℝ n K × RunState ℝ n K d
  | 0 => m.start data s
  | t + 1 =>
    let p := afterRounds m data s t
    p.1.round data p.2

theorem afterRounds_succ (m : Method ℝ n K) (data : Samples ℝ n d) (s : RunState ℝ n K d) (t : ℕ) :
    m.afterRounds data s (t + 1) =
      (m.afterRounds data s t).1.round data (m.afterRounds data s t).2 := rfl

/-- The labelling after some rounds. -/
def labelling (m : Method ℝ n K) (data : Samples ℝ n d) (s : RunState ℝ n K d) (t : ℕ) :
    Vector (Fin K) n := (m.afterRounds data s t).2.labels.current

section Rounds

variable (m : Method ℝ n K) (data : Samples ℝ n d) (s : RunState ℝ n K d)

theorem afterRounds_ready (t : ℕ) :
    (m.afterRounds data s t).1.Ready data (m.afterRounds data s t).2 := by
  induction t with
  | zero => exact start_ready m data s
  | succ t ih => exact (round_settled ih).ready

theorem afterRounds_settled (t : ℕ) :
    (m.afterRounds data s (t + 1)).1.Settled data (m.afterRounds data s (t + 1)).2 :=
  round_settled (afterRounds_ready m data s t)

theorem picks_afterRounds (t : ℕ) :
    (m.afterRounds data s t).1.Picks (d := d) = m.Picks := by
  induction t with
  | zero => exact picks_start m s
  | succ t ih => rw [afterRounds_succ, picks_round, ih]

theorem labelling_lowers {t : ℕ} (ht : 0 < t) :
    m.labelling data s (t + 1) = m.labelling data s t ∨
      potential data.point (m.labelling data s (t + 1)) <
        potential data.point (m.labelling data s t) := by
  obtain ⟨t, rfl⟩ := Nat.exists_eq_succ_of_ne_zero ht.ne'
  exact round_lowers (afterRounds_settled m data s t)

/-- A run makes all its rounds and the test never succeeds, or it ends with the first round after which
the test succeeds. -/
theorem rounds_cases (tol : ℝ) (left t : ℕ) {p : Progress ℝ n K d}
    (hp : Method.rounds data tol left t (m.afterRounds data s t).1 (m.afterRounds data s t).2 = p) :
    (p.convergence = .notConverged ∧ ∀ u, t ≤ u → u < t + left →
        (m.afterRounds data s (u + 1)).2.convergence u tol = .notConverged) ∨
      p.convergence ≠ .notConverged ∧ ∃ u, t ≤ u ∧
        (p.method, p.state) = m.afterRounds data s (u + 1) ∧
        p.state.convergence u tol = p.convergence := by
  induction left generalizing t with
  | zero =>
    subst hp
    exact Or.inl ⟨rfl, fun u htu hut => absurd hut (not_lt.2 htu)⟩
  | succ left ih =>
    have hround : (m.afterRounds data s t).1.round data (m.afterRounds data s t).2 =
      ((m.afterRounds data s (t + 1)).1, (m.afterRounds data s (t + 1)).2) := rfl
    by_cases hc : (m.afterRounds data s (t + 1)).2.convergence t tol = .notConverged
    · rw [rounds_next hround hc] at hp
      rcases ih (t + 1) hp with ⟨hnone, hall⟩ | ⟨hsome, u, htu, hstate, hconv⟩
      · refine Or.inl ⟨hnone, fun u htu hut => ?_⟩
        rcases htu.eq_or_lt with rfl | htu
        · exact hc
        · exact hall u htu (by omega)
      · exact Or.inr ⟨hsome, u, Nat.le_of_succ_le htu, hstate, hconv⟩
    · rw [rounds_end hround rfl hc] at hp
      subst hp
      exact Or.inr ⟨hc, t, le_rfl, rfl, rfl⟩

end Rounds

variable {m : Method ℝ n K} {s : RunState ℝ n K d}

omit [Clustered n K] in
theorem convergence_labels (s : RunState ℝ n K d) (iteration : ℕ) (tol : ℝ) :
    s.convergence iteration tol = .labelsUnchanged ↔
      1 < iteration ∧ s.labels.current = s.labels.previous := by
  have hlabels : (1 < iteration && s.labelsUnchanged) = true ↔
      1 < iteration ∧ s.labels.current = s.labels.previous := by
    simp [State.labelsUnchanged]
  unfold State.convergence
  by_cases h : (1 < iteration && s.labelsUnchanged) = true
  · rw [if_pos h]
    exact iff_of_true rfl (hlabels.1 h)
  · rw [if_neg h]
    refine iff_of_false ?_ (mt hlabels.2 h)
    split <;> exact Convergence.noConfusion

theorem labelling_ne_of_notConverged {t : ℕ} {tol : ℝ} (ht : 1 < t)
    (h : (m.afterRounds data s (t + 1)).2.convergence t tol = .notConverged) :
    m.labelling data s (t + 1) ≠ m.labelling data s t := by
  intro heq
  have hprevious : (m.afterRounds data s (t + 1)).2.labels.previous = m.labelling data s t :=
    round_previous _ _
  have := (convergence_labels _ t tol).2 ⟨ht, heq.trans hprevious.symm⟩
  rw [h] at this
  cases this

/-- The test succeeds within as many rounds as there are labellings, and two. -/
theorem rounds_converge (m : Method ℝ n K) (data : Samples ℝ n d) (s : RunState ℝ n K d) (tol : ℝ)
    {limit : ℕ} (hlimit : K ^ n + 2 ≤ limit) :
    (Method.rounds data tol limit 0 (m.start data s).1 (m.start data s).2).convergence ≠
      .notConverged := by
  rcases rounds_cases m data s tol limit 0 rfl with ⟨-, hall⟩ | ⟨hsome, -⟩
  · have hlower (t : ℕ) (ht : 2 ≤ t) (htl : t < limit) :
        potential data.point (m.labelling data s (t + 1)) <
          potential data.point (m.labelling data s t) :=
      (labelling_lowers m data s (by omega)).resolve_left
        (labelling_ne_of_notConverged ht (hall t (Nat.zero_le t) (by omega)))
    have := steps_lt_labellings (t := 2) (u := limit) hlower
    omega
  · exact hsome

/-- With a tolerance of zero it is unchanged labels that end such a run. -/
theorem rounds_unchanged {limit : ℕ} (hlimit : K ^ n + 2 ≤ limit) :
    (Method.rounds data 0 limit 0 (m.start data s).1 (m.start data s).2).convergence =
      .labelsUnchanged := by
  have hends := rounds_converge m data s 0 hlimit
  generalize hp : Method.rounds data 0 limit 0 (m.start data s).1 (m.start data s).2 = p at hends ⊢
  rcases rounds_cases m data s 0 limit 0 hp with ⟨hnone, -⟩ | ⟨-, u, -, -, hconv⟩
  · exact absurd hnone hends
  · have htol : p.convergence ≠ .tolerance := hconv ▸ convergence_zero_ne_tolerance p.state u
    cases hc : p.convergence with
    | notConverged => exact absurd hc hends
    | tolerance => exact absurd hc htol
    | labelsUnchanged => rfl

/-! ## What a converged run ends with -/

/-- A run ended by unchanged labels is settled, and every sample has a nearest centre. -/
theorem unchanged_spec {u : ℕ} {tol : ℝ}
    (h : (m.afterRounds data s (u + 1)).2.convergence u tol = .labelsUnchanged) (i : Fin n) :
    m.Picks (data.point i) (m.afterRounds data s (u + 1)).2.centres.current
      ((m.afterRounds data s (u + 1)).2.labels.current.get i) := by
  obtain ⟨hu, hlabels⟩ := (convergence_labels _ _ _).1 h
  obtain ⟨u, rfl⟩ := Nat.exists_eq_succ_of_ne_zero (Nat.ne_zero_of_lt hu)
  rw [← picks_afterRounds m data s (u + 1)]
  exact round_nearest (afterRounds_settled m data s u) (hlabels.trans (round_previous _ _)) i

theorem finish_picks {p : Progress ℝ n K d} {u : ℕ} {tol : ℝ}
    (hstate : (p.method, p.state) = m.afterRounds data s (u + 1))
    (hconv : p.state.convergence u tol = p.convergence) (hne : p.convergence ≠ .notConverged)
    (i : Fin n) :
    m.Picks (data.point i) (p.finish data).2.centres.current
      ((p.finish data).2.labels.current.get i) := by
  have hmethod : p.method = (m.afterRounds data s (u + 1)).1 := congrArg Prod.fst hstate
  have hst : p.state = (m.afterRounds data s (u + 1)).2 := congrArg Prod.snd hstate
  unfold Progress.finish
  split
  · obtain ⟨hcentres, hpicks⟩ := relabel_spec (afterRounds_ready m data s (u + 1))
    rw [hmethod, hst, hcentres, ← picks_afterRounds m data s (u + 1)]
    exact hpicks i
  next htol =>
    have hlabels : p.convergence = .labelsUnchanged := by
      cases hc : p.convergence with
      | notConverged => exact absurd hc hne
      | tolerance => exact absurd hc htol
      | labelsUnchanged => rfl
    rw [hst] at hconv ⊢
    exact unchanged_spec (hconv.trans hlabels) i

/-- A run that converges gives every sample the centre that its method picks. -/
theorem improve_picks (tol : ℝ) {limit : ℕ}
    (h : (m.improve data tol limit s).1.converged = true) (i : Fin n) :
    m.Picks (data.point i) (m.improve data tol limit s).1.centres
      ((m.improve data tol limit s).1.labels.get i) := by
  rw [improve_eq] at h ⊢
  rcases rounds_cases m data s tol limit 0 rfl with ⟨hnone, -⟩ | ⟨hsome, u, -, hstate, hconv⟩
  · exact absurd hnone (of_decide_eq_true h)
  · exact finish_picks hstate hconv hsome i

/-- A run that unchanged labels end has its centres at the centroids. -/
theorem improve_centred {tol : ℝ} {limit : ℕ}
    (h : (Method.rounds data tol limit 0 (m.start data s).1 (m.start data s).2).convergence =
      .labelsUnchanged) :
    Centred data.point (m.improve data tol limit s).1.labels
      (m.improve data tol limit s).1.centres := by
  rw [improve_eq]
  generalize hp : Method.rounds data tol limit 0 (m.start data s).1 (m.start data s).2 = p at h ⊢
  rcases rounds_cases m data s tol limit 0 hp with ⟨hnone, -⟩ | ⟨-, u, -, hstate, -⟩
  · rw [h] at hnone
    cases hnone
  · have hst : p.state = (m.afterRounds data s (u + 1)).2 := congrArg Prod.snd hstate
    have hfinish : p.finish data = (p.method, p.state) := by
      rw [Progress.finish, h, if_neg Convergence.noConfusion]
    show Centred data.point (p.finish data).2.labels.current (p.finish data).2.centres.current
    rw [hfinish, hst]
    exact (afterRounds_settled m data s u).centred

/-- Where there are clusters and features a run is made. -/
theorem run_eq [Positive K] (hd : 0 < d) (plan : Plan ℝ) (m : Method ℝ n K)
    (data : Samples ℝ n d) (s : RunState ℝ n K d) :
    plan.run data (some m) s = .ok ((m.improve data plan.tolerance plan.limit s).1,
      some (m.improve data plan.tolerance plan.limit s).2) := by
  have hadmits : m.admits d plan.limit = true := by
    cases m with
    | lloyd w => rfl
    | elkan e => exact elkan_admits e d plan.limit
    | macQueen w => simp [admits, hd]
  rw [Plan.run, if_pos hadmits]

end Method

/-! ## Labels of the training data -/

theorem Engine.nearestLabels_eq [Machine] [Positive K] (pinned : Option Lanes.Width)
    (rows : Matrix ℝ n d) (centres : Matrix ℝ K d) :
    Engine.nearestLabels pinned rows centres = firstNearests rows.get centres := by
  unfold Engine.nearestLabels
  dsimp only
  rw [Assignment.inBlocks_eq]

/-- An engine with the model of a run labels the samples of the run by their first nearest centres. -/
theorem predict_samples [Machine] [hc : Clustered n K] (hn : 0 < n) {run : Run ℝ n K d} {e : Engine ℝ}
    (he : e.model = some run.toModel) :
    e.predict (Grid.ofMatrix data.rows) =
      .ok (labelNumbers (firstNearests data.point run.centres)) := by
  have hpos : Positive K := ⟨hc.pos hn⟩
  have hrows : data.rows.get = data.point :=
    funext fun i => by rw [Samples.rows, Vector.get_ofFn]
  have hcentres : e.centresFor (Grid.ofMatrix data.rows) = .ok (Grid.ofMatrix run.centres) := by
    have hpublished : e.centres = .ok (Grid.ofMatrix run.centres) := by
      rw [Engine.centres, Engine.published, he]
      rfl
    rw [Engine.centresFor, hpublished]
    show (if n = 0 then _ else if d ≠ d then _ else _) = _
    rw [if_neg hn.ne', if_neg (not_not.2 rfl)]
  have hdata : (Grid.ofMatrix data.rows).withCols? (Grid.ofMatrix run.centres).cols =
    some data.rows := Grid.shaped?_ofMatrix data.rows
  have hlabels (c : Matrix ℝ K d) (hc : c = run.centres) :
      Engine.nearestLabels e.settings.width data.rows c = firstNearests data.point run.centres := by
    rw [Engine.nearestLabels_eq, hrows, hc]
  unfold Engine.predict
  simp only [hcentres, Outcome.ofChecked, Except.mapError, bind, Except.bind, hdata]
  refine (dif_pos hpos).trans ?_
  exact congrArg (fun l : Vector (Fin K) n => Except.ok (labelNumbers l))
    (hlabels _ (Grid.entries_ofMatrix run.centres))

/-! ## The results -/

namespace Method

/-- No labelling is met again after it was left, and a run with more rounds than there are labellings
converges. -/
theorem labellings_never_recur [Positive K] (hd : 0 < d) (plan : Plan ℝ)
    (hlimit : K ^ n + 2 ≤ plan.limit) (data : Samples ℝ n d) (m : Method ℝ n K)
    (s : RunState ℝ n K d) :
    (∀ t u v, 0 < t → t ≤ u → u ≤ v → m.labelling data s v = m.labelling data s t →
        m.labelling data s u = m.labelling data s t) ∧
      ∃ run m', plan.run data (some m) s = .ok (run, some m') ∧ run.converged = true := by
  constructor
  · intro t u v ht htu huv hmet
    have hlowers (w : ℕ) (htw : t ≤ w) := labelling_lowers m data s (ht.trans_le htw)
    exact eq_of_met_again htu huv hlowers hmet
  · refine ⟨_, _, run_eq hd plan m data s, ?_⟩
    rw [improve_eq]
    exact decide_eq_true (rounds_converge m data s plan.tolerance hlimit)

omit [RealFormat] in
/-- Three samples in two clusters have eight labellings, and MacQueen's method converges in ten
rounds. -/
theorem labellings_never_recur_three_samples :
    letI := RealFormat.plain
    let plan : Plan ℝ := ⟨.macQueen, .supplied, 10, 0, none⟩
    let data : Samples ℝ 3 1 := ⟨#v[0, 1, 10]⟩
    let m : Method ℝ 3 2 := macQueen .avx2
    let s : RunState ℝ 3 2 1 := RunState.blank 3 2 1
    (0 < 1 ∧ 2 ^ 3 + 2 ≤ plan.limit) ∧
      (∀ t u v, 0 < t → t ≤ u → u ≤ v → m.labelling data s v = m.labelling data s t →
        m.labelling data s u = m.labelling data s t) ∧
      ∃ run m', plan.run data (some m) s = .ok (run, some m') ∧ run.converged = true := by
  let _ := RealFormat.plain
  intro plan data m s
  have hlimit : 2 ^ 3 + 2 ≤ plan.limit := Nat.le_refl 10
  exact ⟨⟨Nat.one_pos, hlimit⟩, labellings_never_recur Nat.one_pos plan hlimit data m s⟩

/-- What a converged run returns: every sample has a nearest centre, the first one where the method
looks at all centres in turn, and then the model labels the samples as the run did. Where unchanged
labels ended the run the centres are the centroids of the clusters. -/
theorem converged_consistent [Machine] [Clustered n K] {plan : Plan ℝ} {data : Samples ℝ n d}
    {m : Method ℝ n K} {s : RunState ℝ n K d} {run : Run ℝ n K d} {m' : Option (Method ℝ n K)}
    (hrun : plan.run data (some m) s = .ok (run, m')) (hconverged : run.converged = true) :
    (∀ i, Nearest (data.point i) run.centres (run.labels.get i)) ∧
      ((∀ e, m ≠ elkan e) →
        (∀ i, FirstNearest (data.point i) run.centres (run.labels.get i)) ∧
          ∀ e : Engine ℝ, 0 < n → e.model = some run.toModel →
            e.labels = .ok (labelNumbers run.labels) ∧
              e.predict (Grid.ofMatrix data.rows) = .ok (labelNumbers run.labels)) ∧
      ((Method.rounds data plan.tolerance plan.limit 0 (m.start data s).1
          (m.start data s).2).convergence = .labelsUnchanged →
        ∀ l, ((members run.labels l).Nonempty →
            run.centres.get l = centroid data.point (members run.labels l)) ∧
          (members run.labels l = ∅ → run.centres.get l = Point.origin)) := by
  obtain rfl : (m.improve data plan.tolerance plan.limit s).1 = run := by
    rw [Plan.run] at hrun
    split at hrun
    · exact congrArg Prod.fst (Except.ok.inj hrun)
    · cases hrun
  have hpicks := improve_picks plan.tolerance hconverged
  refine ⟨fun i => (hpicks i).nearest, fun hm => ?_, fun hunchanged l => ?_⟩
  · have hfirst := fun i => (hpicks i).firstNearest hm
    refine ⟨hfirst, fun e hn he => ⟨?_, ?_⟩⟩
    · rw [Engine.labels, Engine.published, he]
      rfl
    · rw [predict_samples hn he, firstNearests_eq hfirst]
  · have hcentre := improve_centred hunchanged l
    refine ⟨fun _ => hcentre, fun hempty => ?_⟩
    rw [hcentre, hempty, centroid_empty]

omit [RealFormat] in
/-- Two samples in two clusters: a run of Lloyd's method that unchanged labels end. -/
theorem converged_consistent_two_samples :
    letI := RealFormat.plain
    let plan : Plan ℝ := ⟨.lloyd, .supplied, 6, 0, none⟩
    let data : Samples ℝ 2 1 := ⟨#v[0, 10]⟩
    let m : Method ℝ 2 2 := lloyd .avx2
    let s : RunState ℝ 2 2 1 := RunState.blank 2 2 1
    ∃ run m', (plan.run data (some m) s = .ok (run, m') ∧ run.converged = true) ∧
      (∀ e, m ≠ elkan e) ∧
      (Method.rounds data plan.tolerance plan.limit 0 (m.start data s).1
        (m.start data s).2).convergence = .labelsUnchanged ∧
      (∀ i, FirstNearest (data.point i) run.centres (run.labels.get i)) ∧
      ∀ l, (members run.labels l).Nonempty →
        run.centres.get l = centroid data.point (members run.labels l) := by
  let _ := RealFormat.plain
  let _ := Machine.standard
  intro plan data m s
  have hrun := run_eq Nat.one_pos plan m data s
  have hends : (Method.rounds data plan.tolerance plan.limit 0 (m.start data s).1
      (m.start data s).2).convergence = .labelsUnchanged := rounds_unchanged (Nat.le_refl 6)
  have hconverged : (m.improve data plan.tolerance plan.limit s).1.converged = true := by
    rw [improve_eq]
    exact decide_eq_true (hends ▸ Convergence.noConfusion)
  have hm (e : Elkan ℝ 2 2) : m ≠ elkan e := fun h => nomatch h
  obtain ⟨-, hfirst, hcentres⟩ := converged_consistent hrun hconverged
  exact ⟨_, _, ⟨hrun, hconverged⟩, hm, hends, (hfirst hm).1, fun l => (hcentres hends l).1⟩

end Method

end

end Proximity
