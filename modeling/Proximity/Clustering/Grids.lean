import Proximity.Clustering.Model
import Proximity.Clustering.Trace

/-!
# Grids of any shape

Single steps of a clustering on grids whose shapes need not fit. A function answers where the step
never reads past the end of its operands, and there as the step between matrices does.

1. `paddedNormsOf` and `assignmentOf`: rows assigned to centres in blocks.
2. `inertiaOf`: the inertia of any list of labels.
3. `transfersOf`: transfers from centres whose storage is read with the features of the data.
4. `Seeding.statesOf`: the states that runs start from.
-/

namespace Proximity

variable {α σ : Type} [Add α] [Sub α] [Mul α] [Div α] [Neg α] [LT α] [LE α] [DecidableLT α]
  [DecidableLE α] [BEq α] [Scalar α]

/-! ## Assignment -/

/-- A label for every row, and sums and numbers of the members of each cluster if they were asked
for. -/
structure FreeAssignment (α : Type) where
  labels : Array Nat
  totals : Option (Grid α × Array Nat)

omit [Add α] [Sub α] [Mul α] [Div α] [Neg α] [LT α] [LE α] [DecidableLT α] [DecidableLE α] [BEq α]
  [Scalar α] in
/-- An assignment as data. -/
def Assignment.toFree {n K d : Nat} (a : Assignment α n K d) : FreeAssignment α where
  labels := labelNumbers a.labels
  totals := a.totals.map fun t => (.ofMatrix t.sums, t.counts.toArray)

omit [Sub α] [Div α] [Neg α] [LT α] [LE α] [DecidableLT α] [DecidableLE α] [BEq α] in
/-- The padded norms of the rows of a grid. -/
def paddedNormsOf [Machine] (centres : Grid α) (ld : Nat) : Outcome (Vector (Extended α) ld) := do
  Memory.demand (Scalar.bytes α) ld
  Memory.demand (Scalar.bytes α) centres.rows
  return paddedNorms centres.entries ld

/-- The rows of a grid assigned to centres, in blocks of at most `size`. Without rows the features of
the centres do not matter, and without centres all labels are zero and there is nothing to add to. -/
def assignmentOf [Machine] (pinned : Option Lanes.Width) (size : Nat) (data centres : Grid α)
    (accumulate : Bool) : Outcome (FreeAssignment α) := do
  Memory.demand (Scalar.bytes α) centres.rows
  Memory.demand Memory.indexBytes data.rows
  if data.rows = 0 then
    let zero : Totals α centres.rows centres.cols := Totals.zero
    return ⟨#[], if accumulate then some (.ofMatrix zero.sums, zero.counts.toArray) else none⟩
  else
    let some given := centres.withCols? data.cols | .error (.breach .shapes)
    if _ : Positive centres.rows then
      let w := Lanes.assignmentWidth (Scalar.bytes α) centres.rows pinned
      return (Assignment.inBlocks w size data.entries given accumulate
        (Vector.replicate data.rows (Positive.first centres.rows))).toFree
    else if accumulate then .error (.breach .range)
    else return ⟨Array.replicate data.rows 0, none⟩

/-! ## Inertia -/

/-- The sum of squared distances for a list of labels, one for each slot of the storage of the samples
from the first on. A label stands for a row of the storage of the centres, read with the features of
the data; its slot is a 64-bit word. -/
def inertiaOf (data centres : Grid α) (labels : Array Nat) : Outcome α := do
  let samples ← Outcome.ofChecked (Samples.ofGrid data)
  let centre (label : Nat) : Option (Point α data.cols) :=
    Matrix.rowAt? centres.flat.toArray data.cols (Memory.wrap (label * data.cols))
  labels.toList.zipIdx.foldlM (fun acc (label, i) =>
    match (centre label).bind (samples.squaredDistanceFrom? i) with
    | some v => .ok (acc + v)
    | none => .error (.breach .range)) Scalar.zero

/-! ## Transfers -/

/-- The model of transfers. The storage of the given centres is read with the features of the data, and
a single column of the means found stands for all columns of the given centres. -/
def transfersOf [Machine] (data centres : Grid α) (limit : Nat) : Outcome (Model α) := do
  let samples ← Outcome.ofChecked (Samples.ofGrid data)
  Memory.demand Memory.indexBytes centres.rows
  let entries := centres.flat.toArray
  match Matrix.ofFlat? entries centres.rows data.cols with
  | none =>
    if data.rows = 0 then .error (.error (.invalid (.layout .outOfBounds)))
    else .error (.breach .range)
  | some given =>
    if _ : Clustered data.rows centres.rows then
      let next := Matrix.rowAt? entries data.cols (centres.rows * data.cols)
      let run ← transfersFrom samples given next limit
      let model := run.toRun.toModel
      match model.centres.spread? centres.rows centres.cols with
      | some shown => return { model with centres := .ofMatrix shown }
      | none => .error (.breach .shapes)
    else .error (.breach .range)

/-! ## Seeding -/

/-- The states that runs start from, as many as are left, one after another from the same source. -/
def Seeding.starts [Machine] {n K d : Nat} [Clustered n K] (how : Seeding) (S : Sampler σ α)
    (data : Samples α n d) (supplied : Option (Grid α)) :
    (left : Nat) → σ → Outcome (List (FreeState α))
  | 0, _ => .ok []
  | left + 1, g => do
    let s ← Outcome.ofChecked (RunState.fresh (α := α) n K d)
    let (s, g) ← how.start S data supplied s g
    return .ofRun s :: (← Seeding.starts (K := K) how S data supplied left g)

/-- The states that a number of runs with `K` clusters on the rows of a grid start from. -/
def Seeding.statesOf [Machine] (how : Seeding) (S : Sampler σ α) (data : Grid α) (K : Nat)
    (supplied : Option (Grid α)) (runs : Nat) (g : σ) : Outcome (List (FreeState α)) := do
  let samples ← Outcome.ofChecked (Samples.ofGrid data)
  if _ : Clustered data.rows K then
    how.starts (K := K) S samples supplied runs g
  else if runs = 0 then return []
  else
    Vacant.seed how supplied data.cols
    return List.replicate runs (Vacant.state data.rows data.cols)

end Proximity
