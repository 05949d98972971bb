import Proximity.Clustering.Run
import Proximity.Clustering.Vacant

/-!
# Models

The published result of a fit, with its shape as data, and fits of grids.
-/

namespace Proximity

/-- Centres, the label of every sample, and how they were found. -/
structure Model (α : Type) where
  centres : Grid α
  labels : Array Nat
  iterations : Nat
  inertia : α
  converged : Bool

/-- The model of a run. -/
def Run.toModel {α : Type} {n K d : Nat} (r : Run α n K d) : Model α where
  centres := Grid.ofMatrix r.centres
  labels := labelNumbers r.labels
  iterations := r.iterations
  inertia := r.inertia
  converged := r.converged

variable {α σ : Type} [Add α] [Sub α] [Mul α] [Div α] [Neg α] [LT α] [LE α] [DecidableLT α]
  [DecidableLE α] [BEq α] [Scalar α]

omit [Add α] [Sub α] [Mul α] [Div α] [Neg α] [LT α] [LE α] [DecidableLT α] [DecidableLE α] [BEq α] in
/-- The model of samples without clusters: no centres, and all labels zero. -/
def Vacant.model (n d : Nat) : Model α where
  centres := (Vacant.state n d).centres.current
  labels := (Vacant.state (α := α) n d).labels.current
  iterations := 0
  inertia := Scalar.zero
  converged := false

omit [Add α] [Sub α] [Mul α] [Div α] [Neg α] [LT α] [LE α] [DecidableLT α] [DecidableLE α] [BEq α] in
/-- A number of runs on samples without clusters. -/
def Plan.fitVacant [Machine] (plan : Plan α) (n d : Nat) (supplied : Option (Grid α)) (runs : Nat) :
    Outcome (Model α) :=
  if runs = 0 then .error (.error (.invalid .runCount))
  else do
    Vacant.seed plan.seeding supplied d
    if plan.limit = 0 && Vacant.starts (Scalar.bytes α) plan.algorithm d plan.width then
      return Vacant.model n d
    else .error (.breach .range)

/-- The best of a number of runs with `K` clusters on the rows of a grid. -/
def Plan.fitGrid [Machine] (plan : Plan α) (S : Sampler σ α) (data : Grid α) (K : Nat)
    (supplied : Option (Grid α)) (runs : Nat) (source : σ) : Outcome (Model α) := do
  let samples ← Outcome.ofChecked (Samples.ofGrid data)
  if _ : Clustered data.rows K then
    let run ← plan.fit (K := K) S samples supplied runs source
    return run.toModel
  else plan.fitVacant data.rows data.cols supplied runs

end Proximity
