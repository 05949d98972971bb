import Proximity.Clustering.Run
import Proximity.Proofs.Assignment
import Proximity.Proofs.Elkan

/-!
# Elkan's runs agree with Lloyd's

Where no sample has two nearest centres, Elkan's rounds are Lloyd's rounds: both label every sample by
its only nearest centre and move the centres to the means (`meanRound`). This carries over to whole
runs and to fits of several runs, which hand on Elkan's bounds.

1. `Iteration`, `Method.iterations`, `Plan.iterations`: what the single iterations of a run and of a
   fit label against, and the states that they leave.
2. `lloyd_round` and `elkan_round`: both rounds are `meanRound`.
3. `iterations_agree`, `improve_agree`, `fit_agree`: the same through the rounds of a run, a run and
   the runs of a fit.
-/

namespace Proximity

section Iterations

variable {α σ : Type} [Add α] [Sub α] [Mul α] [Div α] [Neg α] [LT α] [LE α] [DecidableLT α]
  [DecidableLE α] [BEq α] [Scalar α] {n K d : ℕ}

/-- A single iteration: the centres that it labels against, and the state that it leaves. -/
structure Iteration (α : Type) (n K d : ℕ) where
  against : Matrix α K d
  after : RunState α n K d

/-- Labels and centres of a state with the shift, the counts and the norm before the shift. The labels
before those of the state are forgotten. -/
def State.settled (s : RunState α n K d) : RunState α n K d :=
  { s with labels.previous := s.labels.current }

/-- The single iterations of the rounds of a run, and that of the labelling that follows them where
the tolerance ended them. -/
def Method.iterations [Clustered n K] (data : Samples α n d) (tol : α) :
    (left iteration : ℕ) → Method α n K → RunState α n K d → List (Iteration α n K d)
  | 0, _, _, _ => []
  | left + 1, iteration, m, s =>
    let p := m.round data s
    ⟨s.centres.current, p.2⟩ ::
      match p.2.convergence iteration tol with
      | .notConverged => Method.iterations data tol left (iteration + 1) p.1 p.2
      | .tolerance => [⟨p.2.centres.current, (p.1.relabel data p.2).2⟩]
      | .labelsUnchanged => []

section Unfolding

variable [Clustered n K] {data : Samples α n d} {tol : α} {left iteration : ℕ} {m m' : Method α n K}
  {s s' : RunState α n K d}

theorem Method.rounds_next (h : m.round data s = (m', s'))
    (hc : s'.convergence iteration tol = .notConverged) :
    Method.rounds data tol (left + 1) iteration m s =
      Method.rounds data tol left (iteration + 1) m' s' := by
  rw [Method.rounds, h]
  simp only [hc]

theorem Method.rounds_end (h : m.round data s = (m', s')) {c : Convergence}
    (hc : s'.convergence iteration tol = c) (hne : c ≠ .notConverged) :
    Method.rounds data tol (left + 1) iteration m s = ⟨m', s', iteration, c⟩ := by
  rw [Method.rounds, h]
  cases c with
  | notConverged => exact absurd rfl hne
  | tolerance => simp only [hc]
  | labelsUnchanged => simp only [hc]

theorem Method.iterations_next (h : m.round data s = (m', s'))
    (hc : s'.convergence iteration tol = .notConverged) :
    Method.iterations data tol (left + 1) iteration m s =
      ⟨s.centres.current, s'⟩ :: Method.iterations data tol left (iteration + 1) m' s' := by
  rw [Method.iterations, h]
  simp only [hc]

theorem Method.iterations_labels (h : m.round data s = (m', s'))
    (hc : s'.convergence iteration tol = .labelsUnchanged) :
    Method.iterations data tol (left + 1) iteration m s = [⟨s.centres.current, s'⟩] := by
  rw [Method.iterations, h]
  simp only [hc]

theorem Method.iterations_tolerance (h : m.round data s = (m', s'))
    (hc : s'.convergence iteration tol = .tolerance) :
    Method.iterations data tol (left + 1) iteration m s =
      [⟨s.centres.current, s'⟩, ⟨s'.centres.current, (m'.relabel data s').2⟩] := by
  rw [Method.iterations, h]
  simp only [hc]

end Unfolding

/-- The method and the state that a run ends with: where the tolerance ended the rounds, the samples
are labelled by the final centres. -/
def Progress.finish [Clustered n K] (p : Progress α n K d) (data : Samples α n d) :
    Method α n K × RunState α n K d :=
  if p.convergence = .tolerance then p.method.relabel data p.state else (p.method, p.state)

theorem Method.improve_eq [Clustered n K] (m : Method α n K) (data : Samples α n d) (tol : α)
    (limit : ℕ) (s : RunState α n K d) :
    m.improve data tol limit s =
      let p := Method.rounds data tol limit 0 (m.start data s).1 (m.start data s).2
      let q := (p.finish data).2
      ({ centres := q.centres.current
         labels := q.labels.current
         iterations := p.iterations
         inertia := data.inertia q.centres.current q.labels.current
         converged := p.convergence ≠ .notConverged }, (p.finish data).1) := rfl

/-- A run ends with the state that its last iteration leaves. -/
theorem Method.iterations_getLast [Clustered n K] (data : Samples α n d) (tol : α) :
    ∀ (left iteration : ℕ) (m : Method α n K) (s : RunState α n K d),
      ((Method.iterations data tol left iteration m s).getLast?.map Iteration.after).getD s =
        ((Method.rounds data tol left iteration m s).finish data).2
  | 0, _, _, _ => rfl
  | left + 1, iteration, m, s => by
    rcases hr : m.round data s with ⟨m', s'⟩
    cases hc : s'.convergence iteration tol with
    | notConverged =>
      rw [Method.iterations_next hr hc, Method.rounds_next hr hc, List.getLast?_cons,
        ← Method.iterations_getLast data tol left (iteration + 1) m' s', Option.map_some,
        Option.getD_some]
      exact (Option.getD_map Iteration.after ⟨s.centres.current, s'⟩ _).symm
    | labelsUnchanged =>
      rw [Method.iterations_labels hr hc, Method.rounds_end hr hc Convergence.noConfusion]
      rfl
    | tolerance =>
      rw [Method.iterations_tolerance hr hc, Method.rounds_end hr hc Convergence.noConfusion]
      rfl

/-- The state that a run of a fit starts from. -/
def Plan.seeded [Machine] [Clustered n K] (plan : Plan α) (S : Sampler σ α) (data : Samples α n d)
    (supplied : Option (Grid α)) (g : σ) : Outcome (RunState α n K d × σ) := do
  let s ← Outcome.ofChecked (RunState.fresh n K d)
  plan.seeding.start S data supplied s g

/-- The single iterations of all runs of a fit, from the method that the runs hand on. -/
def Plan.iterationsFrom [Machine] [Clustered n K] (plan : Plan α) (S : Sampler σ α)
    (data : Samples α n d) (supplied : Option (Grid α)) :
    (left : ℕ) → Method α n K → σ → List (Iteration α n K d)
  | 0, _, _ => []
  | left + 1, m, g =>
    match plan.seeded S data supplied g with
    | .error _ => []
    | .ok (s, g) =>
      let start := m.start data s
      Method.iterations data plan.tolerance plan.limit 0 start.1 start.2 ++
        plan.iterationsFrom S data supplied left (m.improve data plan.tolerance plan.limit s).2 g

section Unfolding

variable [Machine] [Clustered n K] {plan : Plan α} {S : Sampler σ α} {data : Samples α n d}
  {supplied : Option (Grid α)} {left : ℕ} {g : σ}

/-- A run of a fit, with its seeding brought out. -/
theorem Plan.restart_eq (r : Restart α σ n K d) :
    plan.restart S data supplied r = (plan.seeded S data supplied r.source).bind fun p =>
      (plan.run data r.method p.1).map fun q => ⟨q.2, p.2, some (Run.better r.best q.1)⟩ := by
  unfold Plan.restart Plan.seeded
  cases Outcome.ofChecked (RunState.fresh (α := α) n K d) with
  | error b => rfl
  | ok s => rfl

theorem Plan.restarts_of_error {b : Failure}
    (h : plan.seeded (K := K) S data supplied g = .error b) (m : Option (Method α n K))
    (best : Option (Run α n K d)) :
    plan.restarts S data supplied (left + 1) ⟨m, g, best⟩ = .error b := by
  rw [Plan.restarts, Plan.restart_eq, h]
  rfl

theorem Plan.restarts_of_failed_run {s : RunState α n K d} {g' : σ}
    (h : plan.seeded S data supplied g = .ok (s, g')) {m : Option (Method α n K)} {b : Failure}
    (hrun : plan.run data m s = .error b) (best : Option (Run α n K d)) :
    plan.restarts S data supplied (left + 1) ⟨m, g, best⟩ = .error b := by
  rw [Plan.restarts, Plan.restart_eq, h]
  simp only [Except.bind, hrun]
  rfl

theorem Plan.restarts_of_run {s : RunState α n K d} {g' : σ}
    (h : plan.seeded S data supplied g = .ok (s, g')) {m m' : Option (Method α n K)}
    {run : Run α n K d} (hrun : plan.run data m s = .ok (run, m')) (best : Option (Run α n K d)) :
    plan.restarts S data supplied (left + 1) ⟨m, g, best⟩ =
      plan.restarts S data supplied left ⟨m', g', some (Run.better best run)⟩ := by
  rw [Plan.restarts, Plan.restart_eq, h]
  simp only [Except.bind, hrun]
  rfl

theorem Plan.iterationsFrom_of_error {b : Failure} {m : Method α n K}
    (h : plan.seeded (K := K) S data supplied g = .error b) :
    plan.iterationsFrom S data supplied (left + 1) m g = [] := by
  rw [Plan.iterationsFrom, h]

theorem Plan.iterationsFrom_of_seeded {s : RunState α n K d} {g' : σ} {m : Method α n K}
    (h : plan.seeded S data supplied g = .ok (s, g')) :
    plan.iterationsFrom S data supplied (left + 1) m g =
      Method.iterations data plan.tolerance plan.limit 0 (m.start data s).1 (m.start data s).2 ++
        plan.iterationsFrom S data supplied left
          (m.improve data plan.tolerance plan.limit s).2 g' := by
  rw [Plan.iterationsFrom, h]

end Unfolding

/-- The single iterations of a fit. -/
def Plan.iterations [Machine] [Clustered n K] (plan : Plan α) (S : Sampler σ α) (data : Samples α n d)
    (supplied : Option (Grid α)) (runs : ℕ) (g : σ) : Outcome (List (Iteration α n K d)) := do
  match ← Method.fresh plan.algorithm n K d plan.width with
  | some m => return plan.iterationsFrom S data supplied runs m g
  | none => return []

/-- The best run of a fit, if it made any. -/
def Run.chosen : Option (Run α n K d) → Outcome (Run α n K d)
  | some run => .ok run
  | none => .error (.error (.invalid .runCount))

/-- A fit, once there is a method. -/
theorem fit_of_fresh [Machine] [Clustered n K] {plan : Plan α} {m : Option (Method α n K)}
    (h : Method.fresh plan.algorithm n K d plan.width = .ok m) (S : Sampler σ α)
    (data : Samples α n d) (supplied : Option (Grid α)) (runs : ℕ) (g : σ) :
    plan.fit S data supplied runs g =
      ((plan.restarts S data supplied runs ⟨m, g, none⟩).map (·.best)).bind Run.chosen := by
  rw [Plan.fit, h]
  show (plan.restarts S data supplied runs ⟨m, g, none⟩).bind _ = _
  cases plan.restarts S data supplied runs ⟨m, g, none⟩ with
  | error b => rfl
  | ok r =>
    obtain ⟨_, _, best⟩ := r
    cases best <;> rfl

end Iterations

noncomputable section

variable {σ : Type} {n K d : ℕ}

/-- No sample has two nearest centres. -/
def Untied (data : Samples ℝ n d) (centres : Matrix ℝ K d) : Prop :=
  ∀ i l l', Nearest (data.point i) centres l → Nearest (data.point i) centres l' → l = l'

theorem Untied.labels_eq [Clustered n K] {data : Samples ℝ n d} {centres : Matrix ℝ K d}
    (h : Untied data centres) {labels : Vector (Fin K) n}
    (hl : ∀ i, Nearest (data.point i) centres (labels.get i)) :
    labels = firstNearests data.point centres :=
  Vector.ext_get fun i => h i _ _ (hl i) (firstNearests_spec data.point centres i).nearest

variable [RealFormat]

/-! ## A round -/

/-- A state whose samples are labelled by their first nearest centres, with current and previous
labels and centres exchanged before. -/
def labelRound [Clustered n K] (data : Samples ℝ n d) (s : RunState ℝ n K d) : RunState ℝ n K d :=
  { s.swap with labels.current := firstNearests data.point s.centres.current }

/-- The round of a state: labels by the first nearest centres, and centres at their means. -/
def meanRound [Clustered n K] (data : Samples ℝ n d) (s : RunState ℝ n K d) : RunState ℝ n K d :=
  (labelRound data s).recentre (Totals.ofLabels data.point (labelRound data s).labels.current)

theorem lloyd_round [Clustered n K] (w : Lanes.Width) (data : Samples ℝ n d) (s : RunState ℝ n K d) :
    (Method.lloyd w).round data s = (.lloyd w, meanRound data s) := by
  rw [Method.round, Method.step, Lloyd.step_eq]
  rfl

theorem lloyd_relabel [Clustered n K] (w : Lanes.Width) (data : Samples ℝ n d)
    (s : RunState ℝ n K d) :
    (Method.lloyd w).relabel data s = (.lloyd w, (labelRound data s).swapCentres) := by
  simp only [Method.relabel, Method.step, Lloyd.step_eq]
  rfl

/-- Elkan's search finds the only nearest centres. -/
theorem elkan_search [Clustered n K] {e : Elkan ℝ n K} {data : Samples ℝ n d} {s : RunState ℝ n K d}
    (he : e.bounds.Sound data s.centres.current s.labels.current)
    (hs : Untied data s.centres.current) :
    (e.step data false s.swap).2 = labelRound data s := by
  have labels : (e.step data false s.swap).2.labels.current =
      firstNearests data.point s.centres.current :=
    hs.labels_eq fun i => (e.search_spec data s.swap he i).2
  rw [labelRound, ← labels]
  rfl

theorem elkan_round [Clustered n K] {e : Elkan ℝ n K} {data : Samples ℝ n d} {s : RunState ℝ n K d}
    (he : e.bounds.Sound data s.centres.current s.labels.current)
    (hs : Untied data s.centres.current) :
    ∃ e' : Elkan ℝ n K, (Method.elkan e).round data s = (.elkan e', meanRound data s) ∧
      e'.bounds.Sound data (meanRound data s).centres.current (meanRound data s).labels.current := by
  have state : (e.step data true s.swap).2 = meanRound data s := by
    rw [meanRound, ← elkan_search he hs]
    rfl
  refine ⟨(e.step data true s.swap).1, ?_, ?_⟩
  · rw [← state]
    rfl
  · rw [← state]
    exact (e.step_sound data s.swap he).1

theorem elkan_relabel [Clustered n K] {e : Elkan ℝ n K} {data : Samples ℝ n d} {s : RunState ℝ n K d}
    (he : e.bounds.Sound data s.centres.current s.labels.current)
    (hs : Untied data s.centres.current) :
    ∃ e' : Elkan ℝ n K,
      (Method.elkan e).relabel data s = (.elkan e', (labelRound data s).swapCentres) := by
  refine ⟨(e.step data false s.swap).1, ?_⟩
  rw [← elkan_search he hs]
  rfl

/-! ## The rounds of a run -/

omit [RealFormat] in
theorem State.settled_eq_iff {s t : RunState ℝ n K d} :
    s.settled = t.settled ↔ s.centres = t.centres ∧ s.labels.current = t.labels.current ∧
      s.counts = t.counts ∧ s.previousNorm = t.previousNorm := by
  cases s
  cases t
  simp [State.settled]

theorem meanRound_settled [Clustered n K] (data : Samples ℝ n d) {s t : RunState ℝ n K d}
    (h : s.centres.current = t.centres.current) :
    (meanRound data s).settled = (meanRound data t).settled := by
  simp [State.settled_eq_iff, meanRound, labelRound, State.swap, Pair.swap, State.recentre,
    State.computeShift, State.scaleCentres, h]

theorem meanRound_eq [Clustered n K] (data : Samples ℝ n d) {s t : RunState ℝ n K d}
    (h : s.settled = t.settled) : meanRound data s = meanRound data t := by
  obtain ⟨centres, labels, -, -⟩ := State.settled_eq_iff.1 h
  simp [meanRound, labelRound, State.swap, Pair.swap, State.recentre, State.computeShift,
    State.scaleCentres, centres, labels]

omit [RealFormat] in
theorem labelRound_eq [Clustered n K] (data : Samples ℝ n d) {s t : RunState ℝ n K d}
    (h : s.settled = t.settled) : labelRound data s = labelRound data t := by
  obtain ⟨centres, labels, counts, norm⟩ := State.settled_eq_iff.1 h
  simp [labelRound, State.swap, Pair.swap, centres, labels, counts, norm]

/-- The test looks at previous labels from the third round on only. -/
theorem convergence_eq {s t : RunState ℝ n K d} {iteration : ℕ} (tol : ℝ)
    (h : s.settled = t.settled) (hlater : 0 < iteration → s = t) :
    s.convergence iteration tol = t.convergence iteration tol := by
  by_cases hit : 0 < iteration
  · rw [hlater hit]
  · obtain ⟨centres, -, -, norm⟩ := State.settled_eq_iff.1 h
    have hfirst : ¬ 1 < iteration := by omega
    unfold State.convergence State.shiftNorm
    rw [centres, norm]
    simp [hfirst]

/-- Elkan's bounds are sound, and the state agrees with one of Lloyd's: before the first round in the
centres, and afterwards in all but the previous labels. -/
structure Matched (data : Samples ℝ n d) (iteration : ℕ) (s : RunState ℝ n K d) (e : Elkan ℝ n K)
    (t : RunState ℝ n K d) : Prop where
  sound : e.bounds.Sound data t.centres.current t.labels.current
  centres : s.centres.current = t.centres.current
  settled : 0 < iteration → s.settled = t.settled

/-- A round keeps the agreement, and the test after it comes out the same. -/
theorem Matched.round [Clustered n K] {data : Samples ℝ n d} {iteration : ℕ} {s t : RunState ℝ n K d}
    {e : Elkan ℝ n K} (h : Matched data iteration s e t) (hs : Untied data s.centres.current) (tol : ℝ) :
    ∃ e' : Elkan ℝ n K, (Method.elkan e).round data t = (.elkan e', meanRound data t) ∧
      Matched data (iteration + 1) (meanRound data s) e' (meanRound data t) ∧
      (meanRound data s).convergence iteration tol = (meanRound data t).convergence iteration tol := by
  have settled := meanRound_settled data h.centres
  obtain ⟨e', hround, hsound⟩ := elkan_round h.sound (h.centres ▸ hs)
  exact ⟨e', hround, ⟨hsound, congrArg (·.centres.current) settled, fun _ => settled⟩,
    convergence_eq tol settled fun hit => meanRound_eq data (h.settled hit)⟩

/-- An iteration without the labels that it replaced. -/
def Iteration.settled (x : Iteration ℝ n K d) : Iteration ℝ n K d := { x with after := x.after.settled }

/-- The rounds of a run agree. -/
theorem rounds_agree [Clustered n K] (data : Samples ℝ n d) (w : Lanes.Width) (tol : ℝ) :
    ∀ (left iteration : ℕ) (s : RunState ℝ n K d) (e : Elkan ℝ n K) (t : RunState ℝ n K d),
      Matched data iteration s e t →
      (∀ x ∈ Method.iterations data tol left iteration (.lloyd w) s, Untied data x.against) →
      let p := Method.rounds data tol left iteration (.lloyd w) s
      let q := Method.rounds data tol left iteration (.elkan e) t
      p.iterations = q.iterations ∧ p.convergence = q.convergence ∧ p.method = .lloyd w ∧
        (∃ e', q.method = .elkan e' ∧ Matched data (iteration + left) p.state e' q.state) ∧
        (p.convergence = .tolerance → Untied data p.state.centres.current) ∧
        (Method.iterations data tol left iteration (.elkan e) t).map Iteration.settled =
          (Method.iterations data tol left iteration (.lloyd w) s).map Iteration.settled := by
  intro left
  induction left with
  | zero =>
    intro iteration s e t h _
    exact ⟨rfl, rfl, rfl, ⟨e, rfl, h⟩, fun hc => Convergence.noConfusion hc, rfl⟩
  | succ left ih =>
    intro iteration s e t h untied
    have hs : Untied data s.centres.current := untied ⟨s.centres.current, _⟩ (by
      rw [Method.iterations]
      exact List.mem_cons_self)
    obtain ⟨e', hround, hnext, hconv⟩ := h.round hs tol
    have hlloyd := lloyd_round w data s
    have first : Iteration.settled ⟨t.centres.current, meanRound data t⟩ =
        Iteration.settled ⟨s.centres.current, meanRound data s⟩ := by
      simp only [Iteration.settled, hnext.settled (Nat.succ_pos _), h.centres]
    have hmatched : Matched data (iteration + (left + 1)) (meanRound data s) e' (meanRound data t) :=
      ⟨hnext.sound, hnext.centres, fun _ => hnext.settled (Nat.succ_pos _)⟩
    cases hc : (meanRound data s).convergence iteration tol with
    | notConverged =>
      rw [hc] at hconv
      rw [Method.iterations_next hlloyd hc] at untied
      have := ih (iteration + 1) _ e' _ hnext fun x hx => untied x (List.mem_cons_of_mem _ hx)
      rw [Method.rounds_next hlloyd hc, Method.rounds_next hround hconv.symm,
        Method.iterations_next hlloyd hc, Method.iterations_next hround hconv.symm,
        List.map_cons, List.map_cons, first]
      rw [show iteration + (left + 1) = iteration + 1 + left by omega]
      obtain ⟨h₁, h₂, h₃, h₄, h₅, h₆⟩ := this
      exact ⟨h₁, h₂, h₃, h₄, h₅, congrArg _ h₆⟩
    | labelsUnchanged =>
      rw [hc] at hconv
      have hne : Convergence.labelsUnchanged ≠ .notConverged := Convergence.noConfusion
      rw [Method.rounds_end hlloyd hc hne, Method.rounds_end hround hconv.symm hne,
        Method.iterations_labels hlloyd hc, Method.iterations_labels hround hconv.symm]
      exact ⟨rfl, rfl, rfl, ⟨e', rfl, hmatched⟩, fun h => Convergence.noConfusion h,
        congrArg (fun x => [x]) first⟩
    | tolerance =>
      rw [hc] at hconv
      have hne : Convergence.tolerance ≠ .notConverged := Convergence.noConfusion
      rw [Method.iterations_tolerance hlloyd hc] at untied
      have hlast : Untied data (meanRound data s).centres.current :=
        untied ⟨_, _⟩ (List.mem_cons_of_mem _ List.mem_cons_self)
      obtain ⟨e'', hrelabel⟩ := elkan_relabel hnext.sound (hnext.centres ▸ hlast)
      have hround' := labelRound_eq data (hnext.settled (Nat.succ_pos _))
      rw [Method.rounds_end hlloyd hc hne, Method.rounds_end hround hconv.symm hne,
        Method.iterations_tolerance hlloyd hc, Method.iterations_tolerance hround hconv.symm,
        hrelabel, lloyd_relabel, List.map_cons, List.map_cons, first, hround', hnext.centres]
      exact ⟨rfl, rfl, rfl, ⟨e', rfl, hmatched⟩, fun _ => hlast, rfl⟩

/-- What follows the rounds agrees: the samples are labelled once more, or not. -/
theorem finish_agree [Clustered n K] {data : Samples ℝ n d} {w : Lanes.Width} {iteration : ℕ}
    {e : Elkan ℝ n K} {p q : Progress ℝ n K d} (hp : p.method = .lloyd w) (hq : q.method = .elkan e)
    (hconv : p.convergence = q.convergence) (h : Matched data (iteration + 1) p.state e q.state)
    (hlast : p.convergence = .tolerance → Untied data p.state.centres.current) :
    (p.finish data).1 = .lloyd w ∧ (∃ e', (q.finish data).1 = .elkan e') ∧
      (q.finish data).2.centres.current = (p.finish data).2.centres.current ∧
      (q.finish data).2.labels.current = (p.finish data).2.labels.current := by
  have settled := h.settled (Nat.succ_pos _)
  unfold Progress.finish
  by_cases hc : p.convergence = .tolerance
  · obtain ⟨e', hrelabel⟩ := elkan_relabel h.sound (h.centres ▸ hlast hc)
    rw [if_pos hc, if_pos (hconv ▸ hc), hp, hq, hrelabel, lloyd_relabel, labelRound_eq data settled]
    exact ⟨rfl, ⟨e', rfl⟩, rfl, rfl⟩
  · obtain ⟨centres, labels, -, -⟩ := State.settled_eq_iff.1 settled
    rw [if_neg hc, if_neg (hconv ▸ hc)]
    exact ⟨hp, ⟨e, hq⟩, congrArg Pair.current centres.symm, labels.symm⟩

/-- Runs from the same seeded centres agree, and Elkan's method hands on some bounds. -/
theorem improve_agree [Clustered n K] (data : Samples ℝ n d) (w : Lanes.Width) (e : Elkan ℝ n K)
    (tol : ℝ) {limit : ℕ} (hlimit : 0 < limit) (s : RunState ℝ n K d)
    (untied : ∀ x ∈ Method.iterations data tol limit 0 (.lloyd w) s, Untied data x.against) :
    let p := (Method.lloyd w).improve data tol limit s
    let q := (Method.elkan e).improve data tol limit s
    let start := (Method.elkan e).start data s
    q.1 = p.1 ∧ p.2 = .lloyd w ∧ (∃ e', q.2 = .elkan e') ∧
      (Method.iterations data tol limit 0 start.1 start.2).map Iteration.settled =
        (Method.iterations data tol limit 0 (.lloyd w) s).map Iteration.settled := by
  have hstart : Matched data 0 s (e.start data s).1 (e.start data s).2 :=
    ⟨(e.start_sound data s).1, rfl, fun h => absurd h (Nat.lt_irrefl 0)⟩
  obtain ⟨hiter, hconv, hm, ⟨e', hm', hmatched⟩, hlast, htrace⟩ :=
    rounds_agree data w tol limit 0 s _ _ hstart untied
  obtain ⟨limit, rfl⟩ := Nat.exists_eq_succ_of_ne_zero hlimit.ne'
  obtain ⟨hmethod, hmethod', hcentres, hlabels⟩ :=
    finish_agree hm hm' hconv (Nat.zero_add _ ▸ hmatched) hlast
  refine ⟨?_, hmethod, hmethod', htrace⟩
  simp only [Method.improve_eq, Method.start, Run.mk.injEq]
  exact ⟨hcentres, hlabels, hiter.symm, by rw [hcentres, hlabels],
    congrArg (fun c : Convergence => decide (c ≠ .notConverged)) hconv.symm⟩

/-! ## Fits -/

theorem elkan_admits [hK : Positive K] (e : Elkan ℝ n K) (d limit : ℕ) :
    (Method.elkan e).admits d limit = true := by
  have := hK.pos
  simp only [Method.admits, decide_eq_true_eq]
  omega

/-- A run of a fit by Elkan's method is that by Lloyd's, and hands on some bounds. -/
theorem run_agree [Positive K] {plan : Plan ℝ} (hlimit : 0 < plan.limit) (data : Samples ℝ n d)
    (w : Lanes.Width) (e : Elkan ℝ n K) (s : RunState ℝ n K d)
    (untied : ∀ x ∈ Method.iterations data plan.tolerance plan.limit 0 (.lloyd w) s,
      Untied data x.against) :
    ∃ (run : Run ℝ n K d) (e' : Elkan ℝ n K),
      plan.run data (some (.lloyd w)) s = .ok (run, some (.lloyd w)) ∧
      plan.run data (some (.elkan e)) s = .ok (run, some (.elkan e')) ∧
      ((Method.lloyd w).improve data plan.tolerance plan.limit s).2 = .lloyd w ∧
      ((Method.elkan e).improve data plan.tolerance plan.limit s).2 = .elkan e' ∧
      (Method.iterations data plan.tolerance plan.limit 0 ((Method.elkan e).start data s).1
          ((Method.elkan e).start data s).2).map Iteration.settled =
        (Method.iterations data plan.tolerance plan.limit 0 (.lloyd w) s).map Iteration.settled := by
  obtain ⟨hrun, hlloyd, ⟨e', helkan⟩, htrace⟩ :=
    improve_agree data w e plan.tolerance hlimit s untied
  refine ⟨((Method.lloyd w).improve data plan.tolerance plan.limit s).1, e', ?_, ?_, hlloyd, helkan,
    htrace⟩
  · rw [← hlloyd]
    simp [Plan.run, Method.admits, hlloyd]
  · rw [← hrun, ← helkan]
    simp [Plan.run, elkan_admits]

section Fits

variable [Machine]

/-- Fits agree from any run on, whatever bounds Elkan's method has been handed. -/
theorem restarts_agree [Positive K] (plan : Plan ℝ) (S : Sampler σ ℝ) (data : Samples ℝ n d)
    (supplied : Option (Grid ℝ)) (w : Lanes.Width) (hlimit : 0 < plan.limit) :
    ∀ (left : ℕ) (e : Elkan ℝ n K) (g : σ) (best : Option (Run ℝ n K d)),
      (∀ x ∈ plan.iterationsFrom S data supplied left (.lloyd w : Method ℝ n K) g,
        Untied data x.against) →
      (plan.restarts S data supplied left ⟨some (.elkan e), g, best⟩).map (·.best) =
          (plan.restarts S data supplied left ⟨some (.lloyd w), g, best⟩).map (·.best) ∧
        (plan.iterationsFrom S data supplied left (.elkan e) g).map Iteration.settled =
          (plan.iterationsFrom S data supplied left (.lloyd w) g).map Iteration.settled := by
  intro left
  induction left with
  | zero => intro e g best _; exact ⟨rfl, rfl⟩
  | succ left ih =>
    intro e g best untied
    rcases hseed : plan.seeded (K := K) S data supplied g with b | ⟨s, g'⟩
    · rw [Plan.restarts_of_error hseed, Plan.restarts_of_error hseed,
        Plan.iterationsFrom_of_error hseed, Plan.iterationsFrom_of_error hseed]
      exact ⟨rfl, rfl⟩
    · rw [Plan.iterationsFrom_of_seeded hseed] at untied
      have hs := fun x hx => untied x (List.mem_append_left _ hx)
      obtain ⟨run, e', hrun, hrun', hlloyd, helkan, htrace⟩ := run_agree hlimit data w e s hs
      rw [hlloyd] at untied
      have := ih e' g' (some (Run.better best run)) fun x hx => untied x (List.mem_append_right _ hx)
      rw [Plan.restarts_of_run hseed hrun, Plan.restarts_of_run hseed hrun',
        Plan.iterationsFrom_of_seeded hseed, Plan.iterationsFrom_of_seeded hseed, hlloyd, helkan,
        List.map_append, List.map_append, htrace, this.2]
      exact ⟨this.1, rfl⟩

/-- The rounds and the seeding of a plan do not look at its algorithm, once there is a method. -/
theorem restarts_algorithm [Clustered n K] (plan : Plan ℝ) (a : Algorithm) (S : Sampler σ ℝ)
    (data : Samples ℝ n d) (supplied : Option (Grid ℝ)) :
    ∀ (left : ℕ) (r : Restart ℝ σ n K d),
      { plan with algorithm := a }.restarts S data supplied left r =
        plan.restarts S data supplied left r
  | 0, _ => rfl
  | left + 1, r => by
    rw [Plan.restarts, Plan.restarts]
    simp only [restarts_algorithm plan a S data supplied left]
    rfl

theorem iterationsFrom_algorithm [Clustered n K] (plan : Plan ℝ) (a : Algorithm) (S : Sampler σ ℝ)
    (data : Samples ℝ n d) (supplied : Option (Grid ℝ)) :
    ∀ (left : ℕ) (m : Method ℝ n K) (g : σ),
      { plan with algorithm := a }.iterationsFrom S data supplied left m g =
        plan.iterationsFrom S data supplied left m g
  | 0, _, _ => rfl
  | left + 1, m, g => by
    rw [Plan.iterationsFrom, Plan.iterationsFrom]
    simp only [iterationsFrom_algorithm plan a S data supplied left]
    rfl

theorem iterations_of_fresh [Clustered n K] {plan : Plan ℝ} {m : Method ℝ n K}
    (h : Method.fresh plan.algorithm n K d plan.width = .ok (some m)) (S : Sampler σ ℝ)
    (data : Samples ℝ n d) (supplied : Option (Grid ℝ)) (runs : ℕ) (g : σ) :
    plan.iterations S data supplied runs g = .ok (plan.iterationsFrom S data supplied runs m g) := by
  rw [Plan.iterations, h]
  rfl

/-- Room for Elkan's bounds, at the width that a plan chooses for them. -/
def Plan.room (plan : Plan ℝ) (n K : ℕ) : Outcome Unit :=
  Bounds.reserve (Scalar.bytes ℝ) n K
    ((Lanes.boundWidth (Scalar.bytes ℝ) K plan.width).padding (Scalar.bytes ℝ))

/-- **Elkan's fits are Lloyd's.** Where no iteration of a fit by Lloyd's method labels against centres
with a tie, the fit by Elkan's method has the same result, if there is room for its bounds: labels,
centres, iterations, inertia and convergence. So have the single iterations, which label against the
same centres and leave states with the same labels, centres, shift, counts and norm. -/
theorem fit_agree [Positive K] (plan : Plan ℝ) (S : Sampler σ ℝ) (data : Samples ℝ n d)
    (supplied : Option (Grid ℝ)) (runs : ℕ) (g : σ) (hlimit : 0 < plan.limit)
    (untied : ∀ its : List (Iteration ℝ n K d),
      { plan with algorithm := .lloyd }.iterations S data supplied runs g = .ok its →
      ∀ x ∈ its, Untied data x.against) :
    { plan with algorithm := .elkan }.fit (K := K) S data supplied runs g =
        (plan.room n K).bind (fun _ =>
          { plan with algorithm := .lloyd }.fit S data supplied runs g) ∧
      ({ plan with algorithm := .elkan }.iterations (K := K) S data supplied runs g).map
          (List.map Iteration.settled) =
        (plan.room n K).bind (fun _ =>
          ({ plan with algorithm := .lloyd }.iterations S data supplied runs g).map
            (List.map Iteration.settled)) := by
  let w := Lanes.assignmentWidth (Scalar.bytes ℝ) K plan.width
  have hlloyd : Method.fresh .lloyd n K d plan.width = .ok (some (.lloyd w : Method ℝ n K)) := rfl
  have hits : { plan with algorithm := .lloyd }.iterations S data supplied runs g =
      .ok (plan.iterationsFrom S data supplied runs (.lloyd w : Method ℝ n K) g) := by
    rw [iterations_of_fresh hlloyd, iterationsFrom_algorithm]
  rcases hroom : plan.room n K with b | _
  · have hfresh : Method.fresh (α := ℝ) .elkan n K d plan.width = .error b := by
      rw [Method.fresh, Elkan.fresh, show Bounds.reserve _ _ _ _ = _ from hroom]
      rfl
    rw [Plan.fit, Plan.iterations]
    simp only [hfresh]
    exact ⟨rfl, rfl⟩
  · let e : Elkan ℝ n K :=
      { boundWidth := Lanes.boundWidth (Scalar.bytes ℝ) K plan.width
        distanceWidth := Lanes.distanceWidth (Scalar.bytes ℝ) d plan.width
        bounds := Bounds.blank n K _ }
    have hfresh : Method.fresh (α := ℝ) .elkan n K d plan.width = .ok (some (.elkan e)) := by
      rw [Method.fresh, Elkan.fresh, show Bounds.reserve _ _ _ _ = _ from hroom]
      rfl
    have h := restarts_agree plan S data supplied w hlimit runs e g none (untied _ hits)
    constructor
    · rw [fit_of_fresh hfresh, restarts_algorithm, h.1]
      show _ = Plan.fit _ _ _ _ _ _
      rw [fit_of_fresh hlloyd, restarts_algorithm plan .lloyd]
    · rw [iterations_of_fresh hfresh, iterationsFrom_algorithm, hits]
      exact congrArg Except.ok h.2

end Fits

/-- With a tolerance of zero no round counts as one that moved too little. -/
theorem convergence_zero_ne_tolerance (s : RunState ℝ n K d) (iteration : ℕ) :
    s.convergence iteration 0 ≠ .tolerance := by
  have : ¬ s.shiftNorm < 0 := not_lt.2 (Real.sqrt_nonneg _)
  unfold State.convergence
  rw [zero_mul, if_neg this]
  split
  · exact Convergence.noConfusion
  · exact Convergence.noConfusion

/-- A source that always chooses the first numbers. -/
def firstChoices : Sampler Unit ℝ where
  below n := fun _ => (Positive.first n, ())
  distinct n k _ := ((List.finRange n).take k, ())
  weighted _ := .ok none

omit [RealFormat] in
/-- Two samples, each of them a centre: no sample has two nearest centres, and both fits of one round
return the same run. -/
theorem fit_agree_two_samples :
    letI := RealFormat.plain
    letI := Machine.standard
    let plan : Plan ℝ := ⟨.lloyd, .randomSamples, 1, 0, none⟩
    let data : Samples ℝ 2 1 := ⟨#v[0, 10]⟩
    (0 < plan.limit ∧ ∀ its : List (Iteration ℝ 2 2 1),
      plan.iterations firstChoices data none 1 () = .ok its → ∀ x ∈ its, Untied data x.against) ∧
    ∃ run, plan.fit (K := 2) firstChoices data none 1 () = .ok run ∧
      { plan with algorithm := .elkan }.fit (K := 2) firstChoices data none 1 () = .ok run := by
  let _ := RealFormat.plain
  let _ := Machine.standard
  intro plan data
  let w := Lanes.assignmentWidth (Scalar.bytes ℝ) 2 plan.width
  let s : RunState ℝ 2 2 1 := (sampledCentres firstChoices data
    { RunState.blank 2 2 1 with centres.previous := Matrix.const 2 1 Scalar.zero } ()).1
  have hseed : plan.seeded firstChoices data none () = .ok (s, ()) := rfl
  have hfresh : Method.fresh plan.algorithm 2 2 1 plan.width =
    .ok (some (.lloyd w : Method ℝ 2 2)) := rfl
  have own (i l : Fin 2) (hl : Nearest (data.point i) s.centres.current l) : i = l := by
    have centre (l : Fin 2) : s.centres.current.get l = data.point l := by
      fin_cases l <;> rfl
    have hd := Point.dist_le_iff.1 (hl i)
    rw [centre, centre, Point.sqDist_self] at hd
    have h0 : (data.point 0).get 0 = 0 := rfl
    have h1 : (data.point 1).get 0 = 10 := rfl
    simp only [Point.sqDist, Finset.univ_unique, Fin.default_eq_zero, Finset.sum_singleton] at hd
    fin_cases i <;> fin_cases l <;> simp_all
  have untied (its : List (Iteration ℝ 2 2 1))
      (hits : plan.iterations firstChoices data none 1 () = .ok its) (x : Iteration ℝ 2 2 1)
      (hx : x ∈ its) : Untied data x.against := by
    have hfrom : plan.iterations firstChoices data none 1 () =
        .ok (Method.iterations data 0 1 0 (.lloyd w) s) := by
      rw [iterations_of_fresh hfresh, Plan.iterationsFrom_of_seeded hseed]
      exact congrArg Except.ok (List.append_nil _)
    obtain rfl : Method.iterations data 0 1 0 (.lloyd w) s = its :=
      Except.ok.inj (hfrom.symm.trans hits)
    have hagainst : x.against = s.centres.current := by
      have hround := lloyd_round w data s
      cases hc : (meanRound data s).convergence 0 0 with
      | notConverged =>
        rw [Method.iterations_next hround hc] at hx
        rw [List.mem_singleton.1 hx]
      | labelsUnchanged =>
        rw [Method.iterations_labels hround hc] at hx
        rw [List.mem_singleton.1 hx]
      | tolerance => exact absurd hc (convergence_zero_ne_tolerance _ _)
    rw [hagainst]
    intro i l l' hl hl'
    rw [← own i l hl, own i l' hl']
  have hrun : plan.run data (some (.lloyd w)) s =
    .ok (((Method.lloyd w).improve data 0 1 s).1, some ((Method.lloyd w).improve data 0 1 s).2) := rfl
  have hlloyd : plan.fit (K := 2) firstChoices data none 1 () =
      .ok ((Method.lloyd w).improve data 0 1 s).1 := by
    rw [fit_of_fresh hfresh, Plan.restarts_of_run hseed hrun]
    rfl
  have hroom : plan.room 2 2 = .ok () := by
    show Bounds.reserve 8 2 2 ((Lanes.boundWidth 8 2 none).padding 8) = .ok ()
    decide
  refine ⟨⟨Nat.one_pos, untied⟩, _, hlloyd, ?_⟩
  rw [(fit_agree plan firstChoices data none 1 () Nat.one_pos untied).1, hroom]
  exact hlloyd

end

end Proximity
