import Proximity.Engine
import Proximity.Proofs.Counters
import Proximity.Proofs.Words

/-!
# Counting down

A sample that leaves its cluster takes one from the counter of the cluster, and no other counter of a
clustering is counted down. Here a clustering is written with that difference as a machine computes it:
it has no result where the machine stops, and goes on with another number where the machine wraps. Since
the counter is the size of a cluster with a member, neither happens, and the clustering is the one in
exact arithmetic, in the whole as in every step.

1. `MacQueen.visitOn` and `Transfers.optimalStepOn`, `quickStepOn`: the steps that count down, and the
   rounds that are made of them.
2. `Plan.runOn` to `Plan.fitGridOn`: runs and fits.
3. `Engine.computeOn` and `Engine.computeOn_eq`: a computation.
-/

namespace Proximity

variable {α σ : Type} {n K d : ℕ}

/-! ## Outcomes on a machine -/

section Outcomes

variable {β γ : Type}

/-- Two steps have the outcome that they have in exact arithmetic if each of them has. -/
theorem run_bind_eq {x : ExceptT Failure Option β} {y : Outcome β} {f : β → ExceptT Failure Option γ}
    {g : β → Outcome γ} (hx : x.run = some y) (hf : ∀ b, y = .ok b → (f b).run = some (g b)) :
    (x >>= f).run = some (y >>= g) := by
  rw [ExceptT.run_bind, hx]
  cases y with
  | error e => rfl
  | ok b => exact hf b rfl

end Outcomes

variable (A : SizeArithmetic)

/-! ## Visits -/

namespace MacQueen

variable [Add α] [Sub α] [Mul α] [Div α] [LT α] [DecidableLT α] [Scalar α] {w : Lanes.Width}
  {data : Samples α n d} {s : RunState α n K d}

/-- Sample `i` moved from one cluster to another, and both centres with it. -/
def moveOn (data : Samples α n d) (s : RunState α n K d) (i : Fin n) (source target : Fin K) :
    Option (RunState α n K d) := do
  let counts := s.counts.put target (s.counts.get target + 1)
  let rest ← A.sub (counts.get source) 1
  let s := { s with
    labels := { s.labels with current := s.labels.current.put i target }
    counts := counts.put source rest }
  return recompute data (recompute data s target) source

/-- Sample `i` labelled by the nearest of the centres as they are. -/
def visitOn [Clustered n K] (w : Lanes.Width) (data : Samples α n d) (s : RunState α n K d)
    (i : Fin n) : Option (RunState α n K d) :=
  have : Positive K := Clustered.positive i
  let target := closest (w.lanes (Scalar.bytes α)) (data.sample i) s.centres.current
  let source := s.labels.current.get i
  if source = target then some s else moveOn A data s i source target

/-- A round that moves the centres. -/
def stepOn [Clustered n K] (w : Lanes.Width) (data : Samples α n d) (s : RunState α n K d) :
    Option (RunState α n K d) :=
  ((List.finRange n).foldlM (visitOn A w data) (opening s)).map State.computeShift

omit [Add α] [Sub α] [Mul α] [Div α] [LT α] [DecidableLT α] [Scalar α] in
theorem Counted.count_pos (h : Counted s) (i : Fin n) : 0 < s.counts.get (s.labels.current.get i) := by
  rw [h]
  exact Finset.card_pos.2 ⟨i, mem_members.2 rfl⟩

omit [Sub α] [Mul α] [LT α] [DecidableLT α] in
theorem moveOn_eq {source : Fin K} (h : 0 < s.counts.get source) (i : Fin n) (target : Fin K) :
    moveOn A data s i source target = some (move data s i source target) := by
  have hleft : 1 ≤ (s.counts.put target (s.counts.get target + 1)).get source := by
    rw [Vector.get_put]
    split <;> omega
  rw [moveOn, A.sub_exact hleft]
  rfl

variable [Clustered n K]

theorem visitOn_eq (h : Counted s) (i : Fin n) :
    visitOn A w data s i = some (visit w data true s i) := by
  unfold visitOn visit
  dsimp only
  split
  · rfl
  · rw [moveOn_eq A (h.count_pos i), if_pos rfl]

theorem visitsOn_eq (h : Counted s) (samples : List (Fin n)) :
    samples.foldlM (visitOn A w data) s = some (samples.foldl (visit w data true) s) := by
  induction samples generalizing s with
  | nil => rfl
  | cons i samples ih =>
    rw [List.foldlM_cons, visitOn_eq A h i]
    exact ih (visit_counted h i)

theorem stepOn_eq (h : Counted s) : stepOn A w data s.swap = some (step w data true s.swap) := by
  have hopening : Counted (opening s.swap) := h
  rw [stepOn, visitsOn_eq A hopening]
  rfl

end MacQueen

/-! ## Transfers -/

namespace Transfers

variable [Add α] [Sub α] [Mul α] [Div α] [LT α] [LE α] [DecidableLT α] [DecidableLE α] [Scalar α]

/-- Sample `i` moved from cluster `a` to cluster `b`. -/
def transferOn (s : Transfers α n K d) (data : Samples α n d) (i : Fin n) (a b : Fin K) :
    Option (Transfers α n K d) := do
  let rest ← A.sub (s.sizes.get a) 1
  let sizes := s.sizes.put a rest
  return { s.transfer data i a b with sizes := sizes.put b (sizes.get b + 1) }

/-- Sample `i` in the optimal stage. -/
def optimalStepOn (data : Samples α n d) (s : Transfers α n K d) (i : Fin n) :
    Option (Transfers α n K d) :=
  let step : Int := i.val + 1
  let s : Transfers α n K d := { s with quiet := s.quiet + 1 }
  let a := s.first.get i
  if s.sizes.get a = 1 then some s
  else
    let s := s.refreshOptimal data i
    let t := s.bestTarget data step i
    if s.removal.get i ≤ t.cost then some { s with second := s.second.put i t.cluster }
    else (s.markOptimal step a t.cluster).transferOn A data i a t.cluster

/-- The samples of an optimal stage, and whether `n` steps have been quiet. -/
def optimalStepsOn (data : Samples α n d) :
    List (Fin n) → Transfers α n K d → Option (Transfers α n K d × Bool)
  | [], s => some (s, false)
  | i :: rest, s => do
    let s ← optimalStepOn A data s i
    if s.quiet = n then return (s, true) else optimalStepsOn data rest s

/-- An optimal stage, and whether `n` steps without a transfer have passed. -/
def optimalStageOn (data : Samples α n d) (s : Transfers α n K d) :
    Option (Transfers α n K d × Bool) := do
  let (s, settled) ← optimalStepsOn A data (List.finRange n) s.openOptimal
  return if settled then (s, true) else (s.closeOptimal, false)

/-- Sample `i` at a step of the quick stage, and whether it was transferred. -/
def quickStepOn (data : Samples α n d) (s : Transfers α n K d) (step : Int) (i : Fin n) :
    Option (Transfers α n K d × Bool) :=
  let a := s.first.get i
  let b := s.second.get i
  if s.sizes.get a = 1 then some (s, false)
  else
    let s := s.refreshQuick data step i
    let recent : Bool := step < s.changed.get a || step < s.changed.get b
    let bound := s.removal.get i / s.join.get b
    if recent && (distanceBelow (data.point i) (s.centres.get b) bound).isSome then
      ((s.markQuick step a b).transferOn A data i a b).map fun s => (s, true)
    else some (s, false)

/-- Steps of the quick stage, and whether `n` quiet steps in a row were reached. -/
def quickStepsOn (data : Samples α n d) (hn : 0 < n) :
    (left done still : Nat) → Transfers α n K d → Option (Transfers α n K d × Bool)
  | 0, _, _, s => some (s, false)
  | left + 1, done, still, s => do
    let (s, transferred) ← quickStepOn A data s (done + 1 : Nat) ⟨done % n, Nat.mod_lt _ hn⟩
    let still := if transferred then 0 else still + 1
    if still = n then return (s, true) else quickStepsOn data hn left (done + 1) still s

/-- A quick stage, and whether it settled. -/
def quickStageOn (data : Samples α n d) (hn : 0 < n) (s : Transfers α n K d) :
    Option (Transfers α n K d × Bool) :=
  quickStepsOn A data hn (quickStepsPerSample * n - 1) 0 0 s

/-- Both stages in turns, with the number of the rounds made and whether the transfers settled. -/
def roundsOn (data : Samples α n d) (hn : 0 < n) :
    (left done : Nat) → Transfers α n K d → Option (Transfers α n K d × Nat × Bool)
  | 0, done, s => some (s, done, false)
  | left + 1, done, s => do
    let (s, settled) ← optimalStageOn A data s
    if settled then return (s, done + 1, true)
    let (s, settled) ← quickStageOn A data hn s
    if !settled then return (s, done + 1, false)
    if K = 2 then return (s, done + 1, true)
    roundsOn data hn left (done + 1) { s with changed := Vector.replicate K 0 }

variable {data : Samples α n d} {s : Transfers α n K d}

omit [LE α] [DecidableLE α] in
theorem transferOn_eq {a : Fin K} (h : 0 < s.sizes.get a) (i : Fin n) (b : Fin K) :
    s.transferOn A data i a b = some (s.transfer data i a b) := by
  rw [transferOn, A.sub_exact h]
  rfl

theorem optimalStepOn_eq (h : s.Tallied) (i : Fin n) :
    optimalStepOn A data s i = some (optimalStep data s i) := by
  have hnext : ({ s with quiet := s.quiet + 1 } : Transfers α n K d).Tallied := h.congr rfl rfl
  unfold optimalStepOn optimalStep
  dsimp only
  split
  · rfl
  · split
    · rfl
    · refine transferOn_eq A ?_ i _
      show 0 < (refreshOptimal _ data i).sizes.get _
      rw [refreshOptimal_sizes]
      exact h.size_pos i

theorem quickStepOn_eq (h : s.Tallied) (step : ℤ) (i : Fin n) :
    quickStepOn A data s step i = some (quickStep data s step i) := by
  unfold quickStepOn quickStep
  dsimp only
  split
  · rfl
  · split
    · rw [transferOn_eq A (refreshQuick_sizes s data step i ▸ h.size_pos i), Option.map_some]
    · rfl

/-! ### Stages and rounds -/

theorem optimalStepsOn_eq (h : s.Tallied) (samples : List (Fin n)) :
    optimalStepsOn A data samples s = some (optimalSteps data samples s) := by
  induction samples generalizing s with
  | nil => rfl
  | cons i samples ih =>
    rw [optimalStepsOn, optimalStepOn_eq A h, Option.bind_eq_bind, Option.bind_some, optimalSteps]
    split
    · rfl
    · exact ih (h.optimalStep data i)

theorem optimalStageOn_eq (h : s.Tallied) : optimalStageOn A data s = some (optimalStage data s) := by
  rw [optimalStageOn, optimalStepsOn_eq A h.openOptimal]
  rfl

theorem quickStepsOn_eq (h : s.Tallied) (hn : 0 < n) (left done still : ℕ) :
    quickStepsOn A data hn left done still s = some (quickSteps data hn left done still s) := by
  induction left generalizing done still s with
  | zero => rfl
  | succ left ih =>
    have hstep := h.quickStep data (done + 1 : ℕ) ⟨done % n, Nat.mod_lt _ hn⟩
    rw [quickStepsOn, quickStepOn_eq A h, Option.bind_eq_bind, Option.bind_some, quickSteps]
    dsimp only
    generalize (if (quickStep data s _ _).2 = true then 0 else still + 1) = quiet
    split
    · rfl
    · exact ih hstep _ _

theorem quickStageOn_eq (h : s.Tallied) (hn : 0 < n) :
    quickStageOn A data hn s = some (quickStage data hn s) := quickStepsOn_eq A h hn _ _ _

theorem roundsOn_eq (h : s.Tallied) (hn : 0 < n) (left done : ℕ) :
    roundsOn A data hn left done s = some (rounds data hn left done s) := by
  induction left generalizing done s with
  | zero => rfl
  | succ left ih =>
    have hoptimal := h.optimalStage data
    rw [roundsOn, optimalStageOn_eq A h, Option.bind_eq_bind, Option.bind_some, rounds]
    dsimp only
    split
    · rfl
    · rw [quickStageOn_eq A hoptimal hn, Option.bind_some]
      split
      · rfl
      · split
        · rfl
        · refine ih ?_ (done + 1)
          have hquick : (quickStage data hn (optimalStage data s).1).1.Tallied :=
            hoptimal.quickSteps data hn _ _ _
          exact hquick.congr rfl rfl

end Transfers

section Few

variable [Add α] [Sub α] [Mul α] [Div α] [LT α] [LE α] [DecidableLT α] [DecidableLE α] [Scalar α]

/-- Clusters by transfers from given centres. -/
def hartiganWongOn (hK : 1 < K) (data : Samples α n d) (centres : Matrix α K d) (limit : ℕ) :
    Option (TransferRun α n K d) := do
  let s := Transfers.assignFirst hK data centres
  let (s, iterations, converged) ←
    if hn : 0 < n ∧ s.sizes.all (· ≠ 0) then s.roundsOn A data hn.1 limit 0 else some (s, 0, true)
  return Transfers.finish data s.first iterations converged

/-- Clusters by transfers from any number of centres. -/
def transfersFromOn [Clustered n K] (data : Samples α n d) (centres : Matrix α K d)
    (beyond : Option (Point α d)) (limit : ℕ) : ExceptT Failure Option (TransferRun α n K d) :=
  if hK : 1 < K then .lift (hartiganWongOn A hK data centres limit)
  else liftM (Transfers.amongFew data centres beyond limit)

theorem hartiganWongOn_eq (hK : 1 < K) (data : Samples α n d) (centres : Matrix α K d) (limit : ℕ) :
    hartiganWongOn A hK data centres limit = some (hartiganWong hK data centres limit) := by
  unfold hartiganWongOn hartiganWong
  dsimp only
  split
  next hn =>
    rw [Transfers.roundsOn_eq A (Transfers.assignFirst_tallied hK data centres) hn.1]
    rfl
  next => rfl

theorem transfersFromOn_eq [Clustered n K] (data : Samples α n d) (centres : Matrix α K d)
    (beyond : Option (Point α d)) (limit : ℕ) :
    (transfersFromOn A data centres beyond limit).run =
      some (transfersFrom data centres beyond limit) := by
  unfold transfersFromOn transfersFrom
  split
  · rw [hartiganWongOn_eq]
    rfl
  · rfl

end Few

/-! ## Rounds -/

variable [Add α] [Sub α] [Mul α] [Div α] [Neg α] [LT α] [LE α] [DecidableLT α] [DecidableLE α]
  [BEq α] [Scalar α]

namespace Method

variable [Clustered n K]

/-- A round that moves the centres. -/
def roundOn (m : Method α n K) (data : Samples α n d) (s : RunState α n K d) :
    Option (Method α n K × RunState α n K d) :=
  match m with
  | macQueen w => (MacQueen.stepOn A w data s.swap).map fun s => (macQueen w, s)
  | lloyd _ | elkan _ => some (m.round data s)

/-- Rounds until the test succeeds, at most as many as are left. -/
def roundsOn (data : Samples α n d) (tol : α) :
    (left iteration : ℕ) → Method α n K → RunState α n K d → Option (Progress α n K d)
  | 0, iteration, m, s => some ⟨m, s, iteration, .notConverged⟩
  | left + 1, iteration, m, s => do
    let (m, s) ← m.roundOn A data s
    match s.convergence iteration tol with
    | .notConverged => roundsOn data tol left (iteration + 1) m s
    | c => return ⟨m, s, iteration, c⟩

/-- All rounds of a run from seeded centres. -/
def improveOn (m : Method α n K) (data : Samples α n d) (tol : α) (limit : ℕ)
    (s : RunState α n K d) : Option (Run α n K d × Method α n K) := do
  let (m, s) := m.start data s
  let p ← roundsOn A data tol limit 0 m s
  let (m, s) :=
    if p.convergence = .tolerance then p.method.relabel data p.state else (p.method, p.state)
  return ({ centres := s.centres.current
            labels := s.labels.current
            iterations := p.iterations
            inertia := data.inertia s.centres.current s.labels.current
            converged := p.convergence ≠ .notConverged }, m)

variable {m : Method α n K} {data : Samples α n d} {s : RunState α n K d}

theorem roundOn_eq (h : m.Counted s) : m.roundOn A data s = some (m.round data s) := by
  cases m with
  | lloyd w => rfl
  | elkan e => rfl
  | macQueen w =>
    rw [roundOn, MacQueen.stepOn_eq A h]
    rfl

theorem roundsOn_eq (h : m.Counted s) (tol : α) (left iteration : ℕ) :
    roundsOn A data tol left iteration m s = some (rounds data tol left iteration m s) := by
  induction left generalizing iteration m s with
  | zero => rfl
  | succ left ih =>
    have hround := h.round data
    rw [roundsOn, roundOn_eq A h, Option.bind_eq_bind, Option.bind_some, rounds]
    dsimp only
    cases (m.round data s).2.convergence iteration tol with
    | notConverged => exact ih hround (iteration + 1)
    | tolerance => rfl
    | labelsUnchanged => rfl

theorem improveOn_eq (m : Method α n K) (data : Samples α n d) (tol : α) (limit : ℕ)
    (s : RunState α n K d) : m.improveOn A data tol limit s = some (m.improve data tol limit s) := by
  unfold improveOn improve
  dsimp only
  rw [roundsOn_eq A (m.start_counted data s)]
  rfl

end Method

/-! ## Fits -/

namespace Plan

variable [Machine]

/-- A run from seeded centres. -/
def runOn [Clustered n K] (plan : Plan α) (data : Samples α n d) (m : Option (Method α n K))
    (s : RunState α n K d) : ExceptT Failure Option (Run α n K d × Option (Method α n K)) :=
  match m with
  | some m =>
    if m.admits d plan.limit then
      .lift ((m.improveOn A data plan.tolerance plan.limit s).map fun (run, m) => (run, some m))
    else throw (.breach .range)
  | none => do
    let t ← transfersFromOn A data s.centres.current (Point.beyond d) plan.limit
    return (t.toRun, none)

/-- One more run. -/
def restartOn [Clustered n K] (plan : Plan α) (S : Sampler σ α) (data : Samples α n d)
    (supplied : Option (Grid α)) (r : Restart α σ n K d) :
    ExceptT Failure Option (Restart α σ n K d) := do
  let s ← Outcome.ofChecked (RunState.fresh n K d)
  let (s, g) ← plan.seeding.start S data supplied s r.source
  let (run, m) ← plan.runOn A data r.method s
  return { method := m, source := g, best := some (Run.better r.best run) }

/-- As many more runs as are left. -/
def restartsOn [Clustered n K] (plan : Plan α) (S : Sampler σ α) (data : Samples α n d)
    (supplied : Option (Grid α)) :
    (left : ℕ) → Restart α σ n K d → ExceptT Failure Option (Restart α σ n K d)
  | 0, r => return r
  | left + 1, r => do
    let r ← plan.restartOn A S data supplied r
    plan.restartsOn S data supplied left r

/-- The best of a number of runs. -/
def fitOn [Clustered n K] (plan : Plan α) (S : Sampler σ α) (data : Samples α n d)
    (supplied : Option (Grid α)) (runs : ℕ) (source : σ) :
    ExceptT Failure Option (Run α n K d) := do
  let method ← Method.fresh plan.algorithm n K d plan.width
  let r ← plan.restartsOn A S data supplied runs { method, source, best := none }
  match r.best with
  | some run => return run
  | none => throw (.error (.invalid .runCount))

/-- The best of a number of runs with `K` clusters on the rows of a grid. -/
def fitGridOn (plan : Plan α) (S : Sampler σ α) (data : Grid α) (K : ℕ) (supplied : Option (Grid α))
    (runs : ℕ) (source : σ) : ExceptT Failure Option (Model α) := do
  let samples ← Outcome.ofChecked (Samples.ofGrid data)
  if _ : Clustered data.rows K then
    let run ← plan.fitOn A (K := K) S samples supplied runs source
    return run.toModel
  else plan.fitVacant data.rows data.cols supplied runs

omit [Machine] in
theorem runOn_eq [Clustered n K] (plan : Plan α) (data : Samples α n d) (m : Option (Method α n K))
    (s : RunState α n K d) : (plan.runOn A data m s).run = some (plan.run data m s) := by
  cases m with
  | none => exact run_bind_eq (transfersFromOn_eq A data _ _ _) fun t _ => rfl
  | some m =>
    unfold runOn run
    dsimp only
    split
    · rw [Method.improveOn_eq]
      rfl
    · rfl

theorem restartOn_eq [Clustered n K] (plan : Plan α) (S : Sampler σ α) (data : Samples α n d)
    (supplied : Option (Grid α)) (r : Restart α σ n K d) :
    (plan.restartOn A S data supplied r).run = some (plan.restart S data supplied r) :=
  run_bind_eq rfl fun _ _ => run_bind_eq rfl fun seed _ =>
    run_bind_eq (plan.runOn_eq A data r.method seed.1) fun _ _ => rfl

theorem restartsOn_eq [Clustered n K] (plan : Plan α) (S : Sampler σ α) (data : Samples α n d)
    (supplied : Option (Grid α)) (left : ℕ) (r : Restart α σ n K d) :
    (plan.restartsOn A S data supplied left r).run = some (plan.restarts S data supplied left r) := by
  induction left generalizing r with
  | zero => rfl
  | succ left ih => exact run_bind_eq (plan.restartOn_eq A S data supplied r) fun next _ => ih next

theorem fitOn_eq [Clustered n K] (plan : Plan α) (S : Sampler σ α) (data : Samples α n d)
    (supplied : Option (Grid α)) (runs : ℕ) (source : σ) :
    (plan.fitOn A (K := K) S data supplied runs source).run =
      some (plan.fit S data supplied runs source) := by
  refine run_bind_eq rfl fun m _ => run_bind_eq (plan.restartsOn_eq A S data supplied runs _) ?_
  intro r _
  cases r.best with
  | none => rfl
  | some run => rfl

theorem fitGridOn_eq (plan : Plan α) (S : Sampler σ α) (data : Grid α) (K : ℕ)
    (supplied : Option (Grid α)) (runs : ℕ) (source : σ) :
    (plan.fitGridOn A S data K supplied runs source).run =
      some (plan.fitGrid S data K supplied runs source) := by
  refine run_bind_eq rfl fun samples _ => ?_
  split
  · exact run_bind_eq (plan.fitOn_eq A S samples supplied runs source) fun _ _ => rfl
  · rfl

end Plan

/-! ## Computations -/

namespace Engine

variable [Machine]

/-- The model of the stored data, with the conditions met on the way. -/
def fittedOn (e : Engine α) (G : Generator σ α) (entropy : σ) :
    ExceptT Failure Option (Model α × List Warning) := do
  let (data, copied, runs) ← Outcome.ofChecked e.prepare
  let ignored := if runs < e.settings.runs then [Warning.runsIgnored e.settings.runs] else []
  let model ← (Plan.ofSettings e.settings).fitGridOn A G.toSampler data e.settings.clusters copied
    runs (G.start e.settings.seed entropy)
  let limit := if model.converged then [] else [Warning.iterationLimit e.settings.maxIterations]
  return (model, ignored ++ limit)

/-- The stored data clustered. -/
def computeOn (e : Engine α) (G : Generator σ α) (entropy : σ) :
    Option (Outcome (List Warning) × Engine α) :=
  match e.settings.validate with
  | .error x => some (.error (.error x), e)
  | .ok () => do
    let (warning, e) := e.reduceClusters
    match ← (e.fittedOn A G entropy).run with
    | .error f => return (.error f, e)
    | .ok (model, warnings) =>
      return (.ok (warning.toList ++ warnings), { e with model := some model })

/-- Data stored and clustered; the labels of its samples. -/
def fitPredictOn (e : Engine α) (G : Generator σ α) (g : Grid α) (entropy : σ) :
    Option (Outcome (Array ℕ) × Engine α) :=
  match e.setData g with
  | (.error x, e) => some (.error (.error x), e)
  | (.ok _, e) => do
    match ← e.computeOn A G entropy with
    | (.error f, e) => return (.error f, e)
    | (.ok _, e) => return (Outcome.ofChecked (e.published.map (·.labels)), e)

theorem fittedOn_eq (e : Engine α) (G : Generator σ α) (entropy : σ) :
    (e.fittedOn A G entropy).run = some (e.fitted G entropy) :=
  run_bind_eq rfl fun _ _ => run_bind_eq (Plan.fitGridOn_eq A _ _ _ _ _ _ _) fun _ _ => rfl

/-- A computation on any machine is the computation in exact arithmetic: no counter is counted down
below zero. -/
theorem computeOn_eq (e : Engine α) (G : Generator σ α) (entropy : σ) :
    e.computeOn A G entropy = some (e.compute G entropy) := by
  unfold computeOn compute
  cases e.settings.validate with
  | error x => rfl
  | ok _ =>
    dsimp only
    rw [fittedOn_eq]
    rcases e.reduceClusters.2.fitted G entropy with f | ⟨model, warnings⟩
    · rfl
    · rfl

theorem fitPredictOn_eq (e : Engine α) (G : Generator σ α) (g : Grid α) (entropy : σ) :
    e.fitPredictOn A G g entropy = some (e.fitPredict G g entropy) := by
  unfold fitPredictOn fitPredict
  rcases e.setData g with ⟨x | _, e'⟩
  · rfl
  · dsimp only
    rw [computeOn_eq]
    rcases e'.compute G entropy with ⟨f | _, e''⟩
    · rfl
    · rfl

end Engine

end Proximity
