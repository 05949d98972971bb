import Proximity.Clustering.Elkan
import Proximity.Clustering.FewCentres
import Proximity.Clustering.Lloyd
import Proximity.Clustering.MacQueen
import Proximity.Clustering.Seeding
import Proximity.Clustering.Settings

/-!
# Runs

A run seeds centres and improves them until a test of convergence succeeds or the iterations are used
up. A fit makes several runs, one after another from the same source of randomness, and keeps the
first one of least inertia.

1. `Method`: the three methods that work in rounds, under one start and one step.
2. `Convergence`: the test after a round.
3. `Method.improve`: the rounds of a run, and the labels by the final centres.
4. `Plan.fit`: all runs.
-/

namespace Proximity

variable {α σ : Type} [Add α] [Sub α] [Mul α] [Div α] [Neg α] [LT α] [LE α] [DecidableLT α]
  [DecidableLE α] [BEq α] [Scalar α] {n K d : Nat}

/-! ## Methods -/

/-- A method that works in rounds. -/
inductive Method (α : Type) [Scalar α] (n K : Nat) where
  | lloyd (w : Lanes.Width)
  | elkan (e : Elkan α n K)
  | macQueen (w : Lanes.Width)

namespace Method

/-- The method of an algorithm; the transfers of Hartigan and Wong have no rounds of this kind. -/
def fresh [Machine] (algorithm : Algorithm) (n K d : Nat) (pinned : Option Lanes.Width) :
    Outcome (Option (Method α n K)) :=
  let width := Lanes.assignmentWidth (Scalar.bytes α) K pinned
  match algorithm with
  | .lloyd => .ok (some (lloyd width))
  | .elkan => (Elkan.fresh n K d pinned).map (some ∘ elkan)
  | .macQueen => .ok (some (macQueen width))
  | .hartiganWong => .ok none

/-- The sizes that a method can work on, for a number of rounds. The rows of Elkan's bounds are not
empty, and MacQueen's visits compare points that have coordinates. -/
def admits (m : Method α n K) (d rounds : Nat) : Bool :=
  match m with
  | lloyd _ => true
  | elkan e => 0 < K + e.boundWidth.padding (Scalar.bytes α)
  | macQueen _ => rounds = 0 || n = 0 || 0 < d

/-- What a method does before the first round. -/
def start [Clustered n K] (m : Method α n K) (data : Samples α n d) (s : RunState α n K d) :
    Method α n K × RunState α n K d :=
  match m with
  | lloyd w => (lloyd w, s)
  | elkan e =>
    let (e, s) := e.start data s
    (elkan e, s)
  | macQueen w => (macQueen w, MacQueen.start w data s)

/-- A round of a method; with `update` off the centres stay. -/
def step [Clustered n K] (m : Method α n K) (data : Samples α n d) (update : Bool)
    (s : RunState α n K d) : Method α n K × RunState α n K d :=
  match m with
  | lloyd w => (lloyd w, Lloyd.step w data update s)
  | elkan e =>
    let (e, s) := e.step data update s
    (elkan e, s)
  | macQueen w => (macQueen w, MacQueen.step w data update s)

/-- Current and previous state exchanged, and then a round that moves the centres. -/
def round [Clustered n K] (m : Method α n K) (data : Samples α n d) (s : RunState α n K d) :
    Method α n K × RunState α n K d :=
  m.step data true s.swap

/-- All samples labelled by the centres as they are. -/
def relabel [Clustered n K] (m : Method α n K) (data : Samples α n d) (s : RunState α n K d) :
    Method α n K × RunState α n K d :=
  let (m, s) := m.step data false s.swap
  (m, s.swapCentres)

end Method

/-! ## Convergence -/

/-- The outcome of the test after a round. -/
inductive Convergence where
  | notConverged
  /-- The centres moved by less than the tolerance. -/
  | tolerance
  /-- No label changed. -/
  | labelsUnchanged
  deriving Repr, DecidableEq

/-- The test after round `iteration`, counted from zero. Unchanged labels count from the third round
on. -/
def State.convergence {ι : Type} [BEq ι] (s : State α K d ι) (iteration : Nat) (tol : α) :
    Convergence :=
  if 1 < iteration && s.labelsUnchanged then .labelsUnchanged
  else if s.shiftNorm < tol * s.previousNorm then .tolerance
  else .notConverged

/-- The sum of the squared distances of all samples to the centres of their labels, added in the order of
the samples. -/
def Samples.inertia (data : Samples α n d) (centres : Matrix α K d) (labels : Vector (Fin K) n) : α :=
  sumOver n fun i => data.squaredDistanceTo i (centres.get (labels.get i)) (Nat.le_refl d)

/-- A run that has ended. -/
structure Run (α : Type) (n K d : Nat) where
  centres : Matrix α K d
  labels : Vector (Fin K) n
  /-- The round in which convergence was found, counted from zero, or the limit. -/
  iterations : Nat
  inertia : α
  converged : Bool

omit [Add α] [Sub α] [Mul α] [Div α] [Neg α] [LT α] [LE α] [DecidableLT α] [DecidableLE α] [BEq α]
  [Scalar α] in
/-- Transfers that have ended, as a run. -/
def TransferRun.toRun (t : TransferRun α n K d) : Run α n K d where
  centres := t.centres
  labels := t.labels
  iterations := t.iterations
  inertia := t.inertia
  converged := t.converged

omit [Add α] [Sub α] [Mul α] [Div α] [Neg α] [LT α] [LE α] [DecidableLT α] [DecidableLE α] [BEq α] in
/-- What follows the last centre in its storage: a point without coordinates takes no room, so that
there always is one. -/
def Point.beyond (d : Nat) : Option (Point α d) := if d = 0 then some origin else none

/-- A method and a state, with the round that has just been made and its test. -/
structure Progress (α : Type) [Scalar α] (n K d : Nat) where
  method : Method α n K
  state : RunState α n K d
  iterations : Nat
  convergence : Convergence

/-- Rounds until the test succeeds, at most as many as are left. -/
def Method.rounds [Clustered n K] (data : Samples α n d) (tol : α) :
    (left iteration : Nat) → Method α n K → RunState α n K d → Progress α n K d
  | 0, iteration, m, s => ⟨m, s, iteration, .notConverged⟩
  | left + 1, iteration, m, s =>
    let (m, s) := m.round data s
    match s.convergence iteration tol with
    | .notConverged => Method.rounds data tol left (iteration + 1) m s
    | c => ⟨m, s, iteration, c⟩

/-- All rounds of a run from seeded centres. Where the tolerance ended them, the samples are labelled
by the final centres. The method keeps its buffers for the next run. -/
def Method.improve [Clustered n K] (m : Method α n K) (data : Samples α n d) (tol : α) (limit : Nat)
    (s : RunState α n K d) : Run α n K d × Method α n K :=
  let (m, s) := m.start data s
  let p := rounds data tol limit 0 m s
  let (m, s) :=
    if p.convergence = .tolerance then p.method.relabel data p.state else (p.method, p.state)
  ({ centres := s.centres.current
     labels := s.labels.current
     iterations := p.iterations
     inertia := data.inertia s.centres.current s.labels.current
     converged := p.convergence ≠ .notConverged }, m)

/-! ## Fits -/

/-- What the runs of a fit have in common. -/
structure Plan (α : Type) where
  algorithm : Algorithm
  seeding : Seeding
  limit : Nat
  tolerance : α
  width : Option Lanes.Width

omit [Add α] [Sub α] [Mul α] [Div α] [Neg α] [LT α] [LE α] [DecidableLT α] [DecidableLE α]
  [BEq α] in
/-- The plan of some settings. -/
def Plan.ofSettings (s : Settings) : Plan α where
  algorithm := s.algorithm
  seeding := s.seeding
  limit := s.maxIterations
  tolerance := Scalar.ofFloat s.tolerance
  width := s.width

/-- A run from seeded centres, by rounds or by transfers. -/
def Plan.run [Clustered n K] (plan : Plan α) (data : Samples α n d) (m : Option (Method α n K))
    (s : RunState α n K d) : Outcome (Run α n K d × Option (Method α n K)) :=
  match m with
  | some m =>
    if m.admits d plan.limit then
      let (run, m) := m.improve data plan.tolerance plan.limit s
      .ok (run, some m)
    else .error (.breach .range)
  | none =>
    (transfersFrom data s.centres.current (Point.beyond d) plan.limit).map fun t => (t.toRun, none)

omit [Add α] [Sub α] [Mul α] [Div α] [Neg α] [LE α] [DecidableLE α] [BEq α] [Scalar α] in
/-- The better of two runs; the first one where the second is not better. -/
def Run.better (best : Option (Run α n K d)) (run : Run α n K d) : Run α n K d :=
  match best with
  | none => run
  | some b => if run.inertia < b.inertia then run else b

/-- What is carried from run to run: the buffers of the method, the source of randomness, and the
best run so far. -/
structure Restart (α σ : Type) [Scalar α] (n K d : Nat) where
  method : Option (Method α n K)
  source : σ
  best : Option (Run α n K d)

/-- One more run. -/
def Plan.restart [Machine] [Clustered n K] (plan : Plan α) (S : Sampler σ α) (data : Samples α n d)
    (supplied : Option (Grid α)) (r : Restart α σ n K d) : Outcome (Restart α σ n K d) := do
  let s ← Outcome.ofChecked (RunState.fresh n K d)
  let (s, g) ← plan.seeding.start S data supplied s r.source
  let (run, m) ← plan.run data r.method s
  return { method := m, source := g, best := some (Run.better r.best run) }

/-- As many more runs as are left. -/
def Plan.restarts [Machine] [Clustered n K] (plan : Plan α) (S : Sampler σ α) (data : Samples α n d)
    (supplied : Option (Grid α)) :
    (left : Nat) → Restart α σ n K d → Outcome (Restart α σ n K d)
  | 0, r => .ok r
  | left + 1, r => do
    let r ← plan.restart S data supplied r
    plan.restarts S data supplied left r

/-- The best of a number of runs. -/
def Plan.fit [Machine] [Clustered n K] (plan : Plan α) (S : Sampler σ α) (data : Samples α n d)
    (supplied : Option (Grid α)) (runs : Nat) (source : σ) : Outcome (Run α n K d) := do
  let method ← Method.fresh plan.algorithm n K d plan.width
  let r ← plan.restarts S data supplied runs { method, source, best := none }
  match r.best with
  | some run => return run
  | none => .error (.error (.invalid .runCount))

end Proximity
