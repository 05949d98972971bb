import Proximity.Proofs.Restarts
import Proximity.Proofs.Sessions
import Proximity.Proofs.FilledRows

/-!
# Counted rounds

A model reports how many rounds its run has made, and a computation warns if the run has not converged.
The methods that work in rounds count from zero, so that a run that converges reports less than the
limit, and there is a warning exactly if the limit is reported. Transfers count from one: a run that
converges in the last round reports the limit without a warning, and one whose quick stage gives up
warns, also where the limit has not been reached.

1. `Report`: what a run reports, given the verdicts on its rounds.
2. `Method.verdict` and `Transfers.verdict`: the verdicts, with `Method.improve_report` and
   `hartiganWong_report`.
3. `Plan.Seeds` and `Plan.exists_run`: the run that a fit keeps, from its seed.
4. `Engine.PublishedRun`: the run of a published model.
5. `Engine.compute_counts_rounds` and `Engine.transfers_count_from_one`.
-/

namespace Proximity

/-- What a run of at most `limit` rounds reports. The verdict on a round is `none` where another round
follows, and otherwise whether the run has converged. A run that a round ends reports the number of
that round, where the numbers begin with `first`; other runs report the limit. -/
inductive Report (verdict : ℕ → Option Bool) (limit first : ℕ) : ℕ → Bool → Prop
  | ended {t : ℕ} {converged : Bool} (ht : t < limit) (hend : verdict t = some converged)
      (before : ∀ u < t, verdict u = none) : Report verdict limit first (first + t) converged
  | exhausted (all : ∀ u < limit, verdict u = none) : Report verdict limit first limit false

/-- Rounds that are counted from zero and never given up: a run that converges reports less than the
limit. -/
theorem Report.converged_iff {verdict : ℕ → Option Bool} {limit iterations : ℕ} {converged : Bool}
    (h : Report verdict limit 0 iterations converged) (hgiven : ∀ t, verdict t ≠ some false) :
    (converged = false ↔ iterations = limit) ∧
      (converged = true → iterations < limit ∧ verdict iterations = some true ∧
        ∀ t < iterations, verdict t = none) := by
  cases h with
  | @ended t converged ht hend before =>
    cases converged with
    | false => exact absurd hend (hgiven t)
    | true =>
      rw [Nat.zero_add]
      exact ⟨iff_of_false Bool.noConfusion ht.ne, fun _ => ⟨ht, hend, before⟩⟩
  | exhausted all => exact ⟨iff_of_true rfl rfl, fun h => Bool.noConfusion h⟩

variable {α σ : Type} {n K d : ℕ} [Add α] [Sub α] [Mul α] [Div α] [Neg α] [LT α] [LE α]
  [DecidableLT α] [DecidableLE α] [BEq α] [Scalar α]

/-! ## Methods -/

namespace Method

variable [Clustered n K] (m : Method α n K) (data : Samples α n d) (tol : α) (s : RunState α n K d)

/-- The method and the state after the start and some rounds, whatever the test says. -/
def reached (t : ℕ) : Method α n K × RunState α n K d :=
  (fun p => p.1.round data p.2)^[t] (m.start data s)

theorem reached_succ (t : ℕ) :
    m.reached data s (t + 1) = (m.reached data s t).1.round data (m.reached data s t).2 :=
  Function.iterate_succ_apply' _ _ _

/-- The verdict on a round: the test after it. -/
def verdict (t : ℕ) : Option Bool :=
  if (m.reached data s (t + 1)).2.convergence t tol = .notConverged then none else some true

theorem verdict_ne_false (t : ℕ) : m.verdict data tol s t ≠ some false := by
  unfold verdict
  split <;> simp

theorem rounds_report (left t : ℕ) (before : ∀ u < t, m.verdict data tol s u = none) :
    let p := Method.rounds data tol left t (m.reached data s t).1 (m.reached data s t).2
    Report (m.verdict data tol s) (t + left) 0 p.iterations (p.convergence ≠ .notConverged) := by
  induction left generalizing t with
  | zero => exact .exhausted before
  | succ left ih =>
    have hround : (m.reached data s t).1.round data (m.reached data s t).2 =
      ((m.reached data s (t + 1)).1, (m.reached data s (t + 1)).2) := (m.reached_succ data s t).symm
    by_cases hc : (m.reached data s (t + 1)).2.convergence t tol = .notConverged
    · rw [rounds_next hround hc, show t + (left + 1) = t + 1 + left by omega]
      exact ih (t + 1) (Nat.forall_lt_succ_right.2 ⟨before, if_pos hc⟩)
    · rw [rounds_end hround rfl hc]
      have hend : m.verdict data tol s t = some true := if_neg hc
      have hreport : Report (m.verdict data tol s) (t + (left + 1)) 0 (0 + t) true :=
        .ended (by omega) hend before
      rw [Nat.zero_add] at hreport
      simpa [hc] using hreport

/-- A run by rounds counts them from zero. -/
theorem improve_report (limit : ℕ) :
    Report (m.verdict data tol s) limit 0 (m.improve data tol limit s).1.iterations
      (m.improve data tol limit s).1.converged := by
  have h := m.rounds_report data tol s limit 0 fun u hu => absurd hu (Nat.not_lt_zero u)
  rw [Nat.zero_add] at h
  rw [improve_eq]
  exact h

end Method

/-! ## Transfers -/

namespace Transfers

omit [Neg α] [BEq α]

variable (data : Samples α n d) (hn : 0 < n)

/-- A round of transfers, and the verdict on it: an optimal stage in which all settles ends the
transfers, and otherwise a quick stage follows. The transfers are given up where its steps run out, and
two clusters are settled after it. -/
def round (s : Transfers α n K d) : Transfers α n K d × Option Bool :=
  let p := optimalStage data s
  if p.2 then (p.1, some true)
  else
    let q := quickStage data hn p.1
    if !q.2 then (q.1, some false)
    else if K = 2 then (q.1, some true)
    else ({ q.1 with changed := Vector.replicate K 0 }, none)

/-- The rounds go on as the verdict on the first of them says. -/
theorem rounds_succ (left done : ℕ) (s : Transfers α n K d) :
    rounds data hn (left + 1) done s =
      match (round data hn s).2 with
      | some converged => ((round data hn s).1, done + 1, converged)
      | none => rounds data hn left (done + 1) (round data hn s).1 := by
  rw [rounds, round]
  dsimp only
  split
  · rfl
  · split
    · rfl
    · split <;> rfl

variable (s : Transfers α n K d)

/-- The state after some rounds, whatever the verdicts are. -/
def reached (t : ℕ) : Transfers α n K d := (fun s => (round data hn s).1)^[t] s

theorem reached_succ (t : ℕ) :
    reached data hn s (t + 1) = (round data hn (reached data hn s t)).1 :=
  Function.iterate_succ_apply' _ _ _

/-- The verdict on a round. -/
def verdict (t : ℕ) : Option Bool := (round data hn (reached data hn s t)).2

theorem rounds_report (left t : ℕ) (before : ∀ u < t, verdict data hn s u = none) :
    let p := rounds data hn left t (reached data hn s t)
    Report (verdict data hn s) (t + left) 1 p.2.1 p.2.2 := by
  induction left generalizing t with
  | zero => exact .exhausted before
  | succ left ih =>
    rw [rounds_succ]
    cases hround : (round data hn (reached data hn s t)).2 with
    | some converged =>
      have hreport : Report (verdict data hn s) (t + (left + 1)) 1 (1 + t) converged :=
        .ended (by omega) hround before
      rw [Nat.add_comm 1 t] at hreport
      exact hreport
    | none =>
      dsimp only
      rw [← reached_succ, show t + (left + 1) = t + 1 + left by omega]
      exact ih (t + 1) (Nat.forall_lt_succ_right.2 ⟨before, hround⟩)

/-- Where no cluster is empty after the first assignment there is a sample. -/
theorem pos_of_occupied (hK : 1 < K) (centres : Matrix α K d)
    (h : ∀ l, (assignFirst hK data centres).sizes.get l ≠ 0) : 0 < n := by
  by_contra hn
  obtain rfl : n = 0 := by omega
  refine h ⟨1, hK⟩ ?_
  rw [assignFirst_tallied hK data centres]
  exact Finset.card_eq_zero.2 (Finset.eq_empty_of_isEmpty _)

end Transfers

omit [Neg α] [BEq α] in
/-- Transfers make no round where a cluster is empty after the first assignment, and otherwise they count
the rounds from one. -/
theorem hartiganWong_report (hK : 1 < K) (data : Samples α n d) (centres : Matrix α K d) (limit : ℕ) :
    let s := Transfers.assignFirst hK data centres
    let run := hartiganWong hK data centres limit
    (∃ l, s.sizes.get l = 0) ∧ run.iterations = 0 ∧ run.converged = true ∨
      ∃ hn : 0 < n, (∀ l, s.sizes.get l ≠ 0) ∧
        Report (Transfers.verdict data hn s) limit 1 run.iterations run.converged := by
  intro s run
  by_cases hempty : ∃ l, s.sizes.get l = 0
  · obtain ⟨l, hl⟩ := hempty
    have hnone : ¬ (0 < n ∧ s.sizes.all (· ≠ 0) = true) := by
      rintro ⟨-, hall⟩
      exact of_decide_eq_true (Vector.all_eq_true.1 hall l l.isLt) hl
    refine Or.inl ⟨⟨l, hl⟩, ?_⟩
    simp only [run, hartiganWong]
    rw [dif_neg hnone]
    exact ⟨rfl, rfl⟩
  · have hoccupied : ∀ l, s.sizes.get l ≠ 0 := fun l hl => hempty ⟨l, hl⟩
    have hn := Transfers.pos_of_occupied data hK centres hoccupied
    have hall : 0 < n ∧ s.sizes.all (· ≠ 0) = true :=
      ⟨hn, Vector.all_eq_true.2 fun i hi => decide_eq_true (hoccupied ⟨i, hi⟩)⟩
    refine Or.inr ⟨hn, hoccupied, ?_⟩
    have hreport := Transfers.rounds_report data hn s limit 0 fun u hu => absurd hu (Nat.not_lt_zero u)
    rw [Nat.zero_add] at hreport
    simp only [run, hartiganWong]
    rw [dif_pos hall]
    exact hreport

/-! ## The run that a fit keeps -/

section Fits

omit [Add α] [Sub α] [Mul α] [Div α] [Neg α] [LE α] [DecidableLE α] [BEq α] [Scalar α] in
/-- The best of some runs is one of them. -/
theorem Run.mem_of_foldl_better {runs : List (Run α n K d)} {best : Option (Run α n K d)}
    {run : Run α n K d}
    (h : runs.foldl (fun best run => some (Run.better best run)) best = some run) :
    best = some run ∨ run ∈ runs := by
  induction runs generalizing best with
  | nil => exact Or.inl h
  | cons next runs ih =>
    rcases ih h with hbetter | hmem
    · have hbetter := Option.some.inj hbetter
      unfold Run.better at hbetter
      split at hbetter
      · exact Or.inr (hbetter ▸ List.mem_cons_self)
      · split at hbetter
        · exact Or.inr (hbetter ▸ List.mem_cons_self)
        · exact Or.inl (congrArg some hbetter)
    · exact Or.inr (List.mem_cons_of_mem _ hmem)

namespace Plan

variable [Clustered n K] {plan : Plan α} {S : Sampler σ α} {data : Samples α n d}
  {supplied : Option (Grid α)} {g : σ}

section Seeds

variable [Machine]

/-- A run of a fit starts from this state: it is seeded from the source that the seedings before it
leave. -/
def Seeds (plan : Plan α) (S : Sampler σ α) (data : Samples α n d) (supplied : Option (Grid α))
    (g : σ) (s : RunState α n K d) : Prop :=
  ∃ r g₁ g₂, plan.sourceAfter S data K supplied r g = .ok g₁ ∧
    plan.seeded S data supplied g₁ = .ok (s, g₂)

/-- A run by itself starts from a state that is seeded. -/
theorem seeds_of_isolatedRun {m : Option (Method α n K)} {r : ℕ} {run : Run α n K d}
    (hfresh : Method.fresh plan.algorithm n K d plan.width = .ok m)
    (h : plan.isolatedRun S data supplied g r = .ok run) :
    ∃ s m', plan.Seeds S data supplied g s ∧ plan.run data m s = .ok (run, m') := by
  rw [isolatedRun_eq hfresh] at h
  obtain ⟨g₁, hsource, h⟩ := bind_eq_ok h
  obtain ⟨⟨s, g₂⟩, hseed, h⟩ := bind_eq_ok h
  rcases hrun : plan.run data m s with b | ⟨found, m'⟩
  · rw [hrun] at h
    cases h
  · rw [hrun] at h
    obtain rfl : found = run := Except.ok.inj h
    exact ⟨s, m', ⟨r, g₁, g₂, hsource, hseed⟩, hrun⟩

/-- What a fit keeps is a run by a method that has just been made, from a state that is seeded. -/
theorem exists_run {runs : ℕ} {run : Run α n K d} (h : plan.fit S data supplied runs g = .ok run) :
    ∃ m s m', Method.fresh plan.algorithm n K d plan.width = .ok m ∧
      plan.Seeds S data supplied g s ∧ plan.run data m s = .ok (run, m') := by
  rcases hfresh : Method.fresh (α := α) plan.algorithm n K d plan.width with b | m
  · rw [Plan.fit, hfresh] at h
    cases h
  · rw [fit_of_fresh hfresh, restarts_isolated hfresh runs g (Method.Used.rel_refl m) none] at h
    rcases hruns : plan.isolatedRuns (K := K) S data supplied g runs with b | found
    · rw [hruns] at h
      cases h
    · rw [hruns] at h
      have hchosen : Run.chosen (found.foldl (fun best run => some (Run.better best run)) none) =
        .ok run := h
      have hmem : run ∈ found := by
        rcases hbest : found.foldl (fun best run => some (Run.better best run)) none with _ | best
        · rw [hbest] at hchosen
          cases hchosen
        · rw [hbest] at hchosen
          obtain rfl : best = run := Except.ok.inj hchosen
          exact (Run.mem_of_foldl_better hbest).resolve_left (Option.some_ne_none _).symm
      obtain ⟨r, -, hisolated⟩ := exists_isolatedRun hruns hmem
      obtain ⟨s, m', hseeds, hrun⟩ := seeds_of_isolatedRun hfresh hisolated
      exact ⟨m, s, m', rfl, hseeds, hrun⟩

end Seeds

/-- A run by rounds is what its method improves. -/
theorem eq_improve_of_run {m : Method α n K} {s : RunState α n K d} {run : Run α n K d}
    {m' : Option (Method α n K)} (h : plan.run data (some m) s = .ok (run, m')) :
    run = (m.improve data plan.tolerance plan.limit s).1 := by
  unfold Plan.run at h
  dsimp only at h
  split at h
  · exact (congrArg Prod.fst (Except.ok.inj h)).symm
  · cases h

/-- A run by transfers between two clusters or more. -/
theorem eq_transfers_of_run (hK : 1 < K) {s : RunState α n K d} {run : Run α n K d}
    {m' : Option (Method α n K)} (h : plan.run data none s = .ok (run, m')) :
    run = (hartiganWong hK data s.centres.current plan.limit).toRun := by
  rw [Plan.run, transfersFrom, dif_pos hK] at h
  exact (congrArg Prod.fst (Except.ok.inj h)).symm

end Plan

end Fits

/-! ## Published runs -/

namespace Engine

variable [Machine] {G : Generator σ α} {entropy : σ}

/-- The run that the model of an engine is of, with the seed that it starts from. Draws are made by a
generator, from the given state where the settings have no seed. -/
structure PublishedRun (e : Engine α) (G : Generator σ α) (entropy : σ) where
  grid : Grid α
  stored : e.data = some grid
  data : Samples α grid.rows grid.cols
  sampled : Samples.ofGrid grid = .ok data
  clustered : Clustered grid.rows e.settings.clusters
  method : Option (Method α grid.rows e.settings.clusters)
  fresh : Method.fresh e.settings.algorithm grid.rows e.settings.clusters grid.cols e.settings.width =
    .ok method
  seed : RunState α grid.rows e.settings.clusters grid.cols
  seeded : ∃ copied runs, e.prepare = .ok (grid, copied, runs) ∧
    (Plan.ofSettings e.settings).Seeds G.toSampler data copied (G.start e.settings.seed entropy) seed
  run : Run α grid.rows e.settings.clusters grid.cols
  ran : ∃ m', (Plan.ofSettings e.settings).run data method seed = .ok (run, m')
  published : e.model = some run.toModel

namespace PublishedRun

variable {e : Engine α} (r : e.PublishedRun G entropy)

/-- The verdicts on the rounds of the run. -/
def verdict : ℕ → Option Bool :=
  have := r.clustered
  match r.method with
  | some m => m.verdict r.data (Plan.ofSettings e.settings : Plan α).tolerance r.seed
  | none =>
    if h : 1 < e.settings.clusters ∧ 0 < r.grid.rows then
      Transfers.verdict r.data h.2 (Transfers.assignFirst h.1 r.data r.seed.centres.current)
    else fun _ => none

/-- A cluster is empty after the first assignment of the transfers. -/
def StartsEmpty : Prop :=
  ∃ (hK : 1 < e.settings.clusters) (l : Fin e.settings.clusters),
    (Transfers.assignFirst hK r.data r.seed.centres.current).sizes.get l = 0

theorem verdict_of_rounds {m : Method α r.grid.rows e.settings.clusters} (h : r.method = some m) :
    have := r.clustered
    r.verdict = m.verdict r.data (Plan.ofSettings e.settings : Plan α).tolerance r.seed := by
  unfold verdict
  rw [h]

theorem verdict_of_transfers (h : r.method = none) (hK : 1 < e.settings.clusters)
    (hn : 0 < r.grid.rows) :
    r.verdict = Transfers.verdict r.data hn
      (Transfers.assignFirst hK r.data r.seed.centres.current) := by
  unfold verdict
  rw [h]
  exact dif_pos ⟨hK, hn⟩

/-- Rounds are counted from zero, and are never given up. -/
theorem report_of_rounds (h : e.settings.algorithm ≠ .hartiganWong) :
    Report r.verdict e.settings.maxIterations 0 r.run.iterations r.run.converged ∧
      ∀ t, r.verdict t ≠ some false := by
  have := r.clustered
  obtain ⟨m', hran⟩ := r.ran
  cases hm : r.method with
  | none => exact absurd (Method.fresh_eq_none (hm ▸ r.fresh)) h
  | some m =>
    rw [hm] at hran
    rw [r.verdict_of_rounds hm, Plan.eq_improve_of_run hran]
    exact ⟨m.improve_report _ _ _ _, m.verdict_ne_false _ _ _⟩

/-- Transfers make no round, or count them from one. -/
theorem report_of_transfers (h : e.settings.algorithm = .hartiganWong) (hK : 1 < e.settings.clusters) :
    r.StartsEmpty ∧ r.run.iterations = 0 ∧ r.run.converged = true ∨
      ¬ r.StartsEmpty ∧
        Report r.verdict e.settings.maxIterations 1 r.run.iterations r.run.converged := by
  have := r.clustered
  obtain ⟨m', hran⟩ := r.ran
  have hm : r.method = none := by
    have hfresh := r.fresh
    rw [h] at hfresh
    exact (Except.ok.inj hfresh).symm
  rw [hm] at hran
  rw [Plan.eq_transfers_of_run hK hran]
  rcases hartiganWong_report hK r.data r.seed.centres.current
    (Plan.ofSettings e.settings : Plan α).limit with ⟨hempty, hnone⟩ | ⟨hn, hoccupied, hreport⟩
  · exact Or.inl ⟨⟨hK, hempty⟩, hnone⟩
  · refine Or.inr ⟨fun ⟨_, l, hl⟩ => hoccupied l hl, ?_⟩
    rw [r.verdict_of_transfers hm hK hn]
    exact hreport

end PublishedRun

/-! ## Computations -/

section Notes

omit [Machine] [Add α] [Sub α] [Mul α] [Div α] [Neg α] [LT α] [LE α] [DecidableLT α]
  [DecidableLE α] [BEq α] [Scalar α]

/-- Of all warnings it is that of the iteration limit which says that the run has not converged. -/
theorem iterationLimit_mem (e : Engine α) (runs requested limit k : ℕ) (converged : Bool) :
    .iterationLimit k ∈ e.reduceClusters.1.toList ++
        ((if runs < requested then [.runsIgnored requested] else []) ++
          if converged then [] else [.iterationLimit limit]) ↔
      converged = false ∧ k = limit := by
  have hreduced : Warning.iterationLimit k ∉ e.reduceClusters.1.toList := by
    unfold reduceClusters
    split
    · simp
    · split <;> simp
  have hignored : Warning.iterationLimit k ∉
      if runs < requested then [Warning.runsIgnored requested] else [] := by
    split <;> simp
  rw [List.mem_append, or_iff_right hreduced, List.mem_append, or_iff_right hignored]
  cases converged <;> simp

/-- Transfers have fewer clusters than samples. -/
theorem lt_rows_of_prepare {e : Engine α} {data : Grid α} {copied : Option (Grid α)} {runs : ℕ}
    (h : e.prepare = .ok (data, copied, runs)) (halgorithm : e.settings.algorithm = .hartiganWong) :
    e.settings.clusters < data.rows := by
  obtain ⟨stored, -, h⟩ := bind_eq_ok h
  obtain ⟨centres, -, h⟩ := bind_eq_ok h
  obtain ⟨_, hcheck, h⟩ := bind_eq_ok h
  cases h
  by_contra hle
  rw [checkTransfers, if_pos ⟨halgorithm, .inr (not_lt.1 hle)⟩] at hcheck
  cases hcheck

end Notes

/-- The model that a computation publishes is that of a run, between two clusters or more if it is one
of transfers. The computation warns of the iteration limit if the run has not converged. -/
theorem exists_publishedRun {e e' : Engine α} {warnings : List Warning}
    (h : e.compute G entropy = (.ok warnings, e')) :
    ∃ r : e'.PublishedRun G entropy,
      (∀ k, .iterationLimit k ∈ warnings ↔
        r.run.converged = false ∧ k = e'.settings.maxIterations) ∧
      (e'.settings.algorithm = .hartiganWong → 1 < e'.settings.clusters) := by
  obtain ⟨hvalid, model, notes, hfitted, rfl, rfl⟩ := compute_eq_ok h
  obtain ⟨data, copied, runs, hprepare, hmodel, hnotes⟩ := fitted_eq_ok hfitted
  obtain ⟨hdata, -, hone⟩ := prepare_spec hprepare
  have hK : e.reduceClusters.2.settings.clusters = min e.settings.clusters data.rows :=
    reduceClusters_clusters (by rwa [reduceClusters_data] at hdata)
  have hpos : 0 < data.rows → 0 < e.reduceClusters.2.settings.clusters :=
    fun hrows => hK ▸ lt_min (validate_clusters_pos hvalid) hrows
  have hclustered : Clustered data.rows e.reduceClusters.2.settings.clusters := ⟨hpos⟩
  rw [Plan.fitGrid_eq] at hmodel
  obtain ⟨samples, hsamples, hmodel⟩ := bind_eq_ok hmodel
  obtain ⟨run, hfit, rfl⟩ := map_eq_ok hmodel
  obtain ⟨m, s, m', hfresh, hseeds, hrun⟩ := Plan.exists_run hfit
  refine ⟨⟨data, hdata, samples, ofChecked_eq_ok hsamples, hclustered, m, hfresh, s,
    ⟨copied, runs, hprepare, hseeds⟩, run, ⟨m', hrun⟩, rfl⟩, fun k => ?_, fun halgorithm => ?_⟩
  · rw [hnotes]
    exact iterationLimit_mem e runs _ _ k _
  · have hrows := lt_rows_of_prepare hprepare halgorithm
    have hone := hone halgorithm
    have hpos := hpos (Nat.zero_lt_of_lt hrows)
    dsimp only
    omega

/-- **The reported rounds.** A computation that succeeds publishes the model of a run. If it is one by
rounds, the computation warns of the iteration limit exactly if the limit is the number of rounds that is
reported, and otherwise this number is less: it is that of the round in which the run has converged,
counted from zero. Transfers report one round more than that, and those that a cluster without samples
keeps from starting report none; the computation warns if the run has not converged, be it at the limit
or in the round that was given up. -/
theorem compute_counts_rounds {e e' : Engine α} {warnings : List Warning}
    (h : e.compute G entropy = (.ok warnings, e')) :
    ∃ (r : e'.PublishedRun G entropy) (info : ModelInfo α), e'.info = .ok info ∧
      let warned := ∃ k, .iterationLimit k ∈ warnings
      let limit := e'.settings.maxIterations
      (e'.settings.algorithm ≠ .hartiganWong →
        (warned ↔ info.iterations = limit) ∧
          (¬ warned → info.iterations < limit ∧ r.verdict info.iterations = some true ∧
            ∀ t < info.iterations, r.verdict t = none)) ∧
      (e'.settings.algorithm = .hartiganWong →
        r.StartsEmpty ∧ info.iterations = 0 ∧ ¬ warned ∨
          ¬ r.StartsEmpty ∧ ∃ converged, Report r.verdict limit 1 info.iterations converged ∧
            (warned ↔ converged = false)) := by
  obtain ⟨r, hwarnings, hK⟩ := exists_publishedRun h
  have hwarned : (∃ k, .iterationLimit k ∈ warnings) ↔ r.run.converged = false :=
    ⟨fun ⟨k, hk⟩ => ((hwarnings k).1 hk).1, fun hconverged => ⟨_, (hwarnings _).2 ⟨hconverged, rfl⟩⟩⟩
  refine ⟨r, ⟨r.grid.rows, r.grid.cols, r.run.toModel.centres.rows, r.run.iterations,
    r.run.inertia⟩, ?_, ?_, ?_⟩
  · rw [Engine.info, Engine.published, r.published, Engine.storedData, r.stored]
    rfl
  · intro halgorithm
    obtain ⟨hreport, hgiven⟩ := r.report_of_rounds halgorithm
    obtain ⟨hlimit, hended⟩ := hreport.converged_iff hgiven
    refine ⟨hwarned.trans hlimit, fun hnone => hended ?_⟩
    rwa [hwarned, Bool.not_eq_false] at hnone
  · intro halgorithm
    refine (r.report_of_transfers halgorithm (hK halgorithm)).imp ?_ ?_
    · rintro ⟨hempty, hnone, hconverged⟩
      refine ⟨hempty, hnone, ?_⟩
      rw [hwarned, hconverged]
      exact Bool.noConfusion
    · rintro ⟨hoccupied, hreport⟩
      exact ⟨hoccupied, r.run.converged, hreport, hwarned⟩

omit [Machine] in
/-- Two samples, and two centres that move once. Lloyd's method converges in the round after that, whose
number is one, and there is no warning. -/
theorem compute_counts_rounds_two_samples :
    letI := Machine.standard
    let s : Settings := { clusters := 2, seeding := .supplied, maxIterations := 5 }
    let G := Keystream.generator Float
    let entropy := Keystream.ofSeed 0
    let e : Engine Float := (ofSettings s).run G
      [.setData ⟨2, 1, #v[0, 10]⟩, .setInitialCentres ⟨2, 1, #v[1, 11]⟩]
    let e' := (e.compute G entropy).2
    e.compute G entropy = (.ok [], e') ∧
      ∃ (r : e'.PublishedRun G entropy) (info : ModelInfo Float), e'.info = .ok info ∧
        info.iterations = 1 ∧ r.verdict 0 = none ∧ r.verdict 1 = some true := by
  let _ := Machine.standard
  intro s G entropy e e'
  have hwarnings : (e.compute G entropy).1.toOption = some [] := by decide +kernel
  have hiterations : e'.info.toOption.map (·.iterations) = some 1 := by decide +kernel
  have hok : e.compute G entropy = (.ok [], e') := Prod.ext (eq_ok_of_toOption hwarnings) rfl
  refine ⟨hok, ?_⟩
  obtain ⟨r, info, hinfo, hrounds, -⟩ := compute_counts_rounds hok
  have hone : info.iterations = 1 := by
    rw [hinfo] at hiterations
    exact Option.some.inj hiterations
  have halgorithm : e'.settings.algorithm ≠ .hartiganWong := by decide +kernel
  obtain ⟨-, hended⟩ := hrounds halgorithm
  obtain ⟨-, hend, before⟩ := hended (by simp)
  rw [hone] at hend before
  exact ⟨r, info, hinfo, hone, before 0 Nat.one_pos, hend⟩

omit [Machine] in
/-- Three samples and two clusters: the transfers settle in the only round that is allowed. They report
the limit as the number of rounds, and there is no warning. -/
theorem transfers_count_from_one :
    letI := Machine.standard
    let s : Settings :=
      { clusters := 2, algorithm := .hartiganWong, seeding := .supplied, maxIterations := 1 }
    let G := Keystream.generator Float
    let entropy := Keystream.ofSeed 0
    let e : Engine Float := (ofSettings s).run G
      [.setData ⟨3, 1, #v[0, 1, 10]⟩, .setInitialCentres ⟨2, 1, #v[0, 10]⟩]
    let e' := (e.compute G entropy).2
    ∃ warnings info, e.compute G entropy = (.ok warnings, e') ∧ e'.info = .ok info ∧
      info.iterations = e'.settings.maxIterations ∧ ¬ ∃ k, .iterationLimit k ∈ warnings := by
  let _ := Machine.standard
  intro s G entropy e e'
  have hwarnings : (e.compute G entropy).1.toOption = some [] := by decide +kernel
  have hiterations : e'.info.toOption.map (·.iterations) = some 1 := by decide +kernel
  have hlimit : e'.settings.maxIterations = 1 := by decide +kernel
  obtain ⟨info, hinfo, hone⟩ := Option.map_eq_some_iff.1 hiterations
  refine ⟨[], info, Prod.ext (eq_ok_of_toOption hwarnings) rfl, eq_ok_of_toOption hinfo,
    hone.trans hlimit.symm, ?_⟩
  rintro ⟨k, hk⟩
  cases hk

end Engine

end Proximity
