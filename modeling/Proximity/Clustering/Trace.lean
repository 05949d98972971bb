import Proximity.Clustering.Run
import Proximity.Clustering.Vacant

/-!
# Traces

A run stops when its test of convergence succeeds. A trace makes a given number of rounds whatever the
test says, and keeps the state and the test after every round.

1. `Method.follow`: rounds with their records.
2. `Method.trace`: the start of a method, its rounds, and the labels by the final centres.
3. `traceOf`: the trace of an algorithm on grids.
-/

namespace Proximity

variable {α : Type} [Add α] [Sub α] [Mul α] [Div α] [Neg α] [LT α] [LE α] [DecidableLT α]
  [DecidableLE α] [BEq α] [Scalar α] {n K d : Nat}

/-- The states of a method in a number of rounds. -/
structure Trace (α : Type) where
  /-- The state before the first round. -/
  start : FreeState α
  /-- The state after each round, and its test. -/
  rounds : List (FreeState α × Convergence)
  /-- The state labelled by the final centres, if that was asked for. -/
  relabelled : Option (FreeState α)
  inertia : α

/-- As many rounds as are left, with their records, and the method and state they lead to. -/
def Method.follow [Clustered n K] (data : Samples α n d) (tol : α) :
    (left iteration : Nat) → Method α n K → RunState α n K d →
      List (FreeState α × Convergence) × Method α n K × RunState α n K d
  | 0, _, m, s => ([], m, s)
  | left + 1, iteration, m, s =>
    let (m, s) := m.round data s
    let (records, last) := Method.follow data tol left (iteration + 1) m s
    ((.ofRun s, s.convergence iteration tol) :: records, last)

/-- The trace of a method from a state with given centres. -/
def Method.trace [Clustered n K] (m : Method α n K) (data : Samples α n d) (tol : α) (count : Nat)
    (relabel : Bool) (s : RunState α n K d) : Trace α :=
  let (m, s) := m.start data s
  let (rounds, m, last) := Method.follow data tol count 0 m s
  let last := if relabel then (m.relabel data last).2 else last
  { start := .ofRun s
    rounds
    relabelled := if relabel then some (.ofRun last) else none
    inertia := data.inertia last.centres.current last.labels.current }

omit [Add α] [Sub α] [Mul α] [Div α] [Neg α] [LT α] [LE α] [DecidableLT α] [DecidableLE α] [BEq α] in
/-- The trace of samples without clusters. It has no rounds, and only Lloyd's labels can be renewed. -/
def Vacant.trace [Machine] (algorithm : Algorithm) (pinned : Option Lanes.Width) (n d count : Nat)
    (relabel : Bool) : Outcome (Trace α) :=
  if count = 0 && (!relabel || algorithm = .lloyd) &&
      Vacant.starts (Scalar.bytes α) algorithm d pinned then
    .ok
      { start := Vacant.state n d
        rounds := []
        relabelled := if relabel then some (Vacant.state n d) else none
        inertia := Scalar.zero }
  else .error (.breach .range)

/-- The trace of an algorithm that works in rounds. Of the given centres a single column stands for
all. -/
def traceOf [Machine] (algorithm : Algorithm) (pinned : Option Lanes.Width) (data centres : Grid α)
    (count : Nat) (tol : α) (relabel : Bool) : Outcome (Trace α) := do
  let samples ← Outcome.ofChecked (Samples.ofGrid data)
  let method ← Method.fresh (α := α) algorithm data.rows centres.rows data.cols pinned
  Outcome.ofChecked (State.reserve (Scalar.bytes α) data.rows centres.rows data.cols)
  let some given := centres.spread? centres.rows data.cols | .error (.breach .shapes)
  if _ : Clustered data.rows centres.rows then
    let s : RunState α _ _ _ := RunState.blank data.rows centres.rows data.cols
    let some m := method | .error (.breach .range)
    if m.admits data.cols (if relabel then count + 1 else count) then
      return m.trace samples tol count relabel { s with centres.current := given }
    else .error (.breach .range)
  else Vacant.trace algorithm pinned data.rows data.cols count relabel

end Proximity
