import Proximity.Clustering.Model

/-!
# The engine

A clustering as a session: data and initial centres are stored, `compute` publishes a model, and the
model answers queries and labels new rows. Every call returns its outcome and the engine it leaves
behind. Random choices come from any `Generator`; a computation without a seed starts from a state
that it is given.

1. Storing: `setData`, `setInitialCentres`, and both from flat buffers.
2. `compute` and `fitPredict`.
3. Reading: `info`, and buffers filled with results by `fillNumbers` and `fillIntegers`.
4. New rows: `predict`, `transform`, and both from flat buffers.
-/

namespace Proximity

/-- Settings, data, initial centres and the last model. -/
structure Engine (α : Type) where
  settings : Settings
  data : Option (Grid α)
  initialCentres : Option (Grid α)
  model : Option (Model α)

/-- A result to be copied out. -/
inductive Query where
  | info
  | centres
  | labels
  deriving Repr, DecidableEq

/-- Sizes and quality of a model. -/
structure ModelInfo (α : Type) where
  samples : Nat
  features : Nat
  clusters : Nat
  iterations : Nat
  inertia : α

namespace Engine

variable {α σ : Type}

/-- An engine with nothing stored. -/
def ofSettings (s : Settings) : Engine α := ⟨s, none, none, none⟩

/-- The stored data. -/
def storedData (e : Engine α) : Checked (Grid α) :=
  match e.data with
  | some g => .ok g
  | none => .error (.missing .data)

/-- The published model. -/
def published (e : Engine α) : Checked (Model α) :=
  match e.model with
  | some m => .ok m
  | none => .error (.missing .result)

/-! ## Storing -/

/-- No more clusters than samples. -/
def reduceClusters (e : Engine α) : Option Warning × Engine α :=
  match e.data with
  | none => (none, e)
  | some g =>
    if e.settings.clusters ≤ g.rows then (none, e)
    else (some (.clustersReduced e.settings.clusters g.rows),
      { e with settings.clusters := g.rows })

/-- Data that can be stored: at least one sample and one feature, in a buffer that can exist. -/
def checkData [Machine] [Scalar α] (g : Grid α) : Checked Unit :=
  if g.rows = 0 ∨ g.cols = 0 then .error (.invalid (.emptyData g.rows g.cols))
  else Memory.reserve (Scalar.bytes α) (g.rows * g.cols)

/-- The data replaced and the model forgotten. -/
def setData [Machine] [Scalar α] (e : Engine α) (g : Grid α) : Checked (List Warning) × Engine α :=
  match checkData g with
  | .error x => (.error x, e)
  | .ok () =>
    let (warning, e) := reduceClusters { e with data := some g, model := none }
    (.ok warning.toList, e)

/-- The data replaced by a strided matrix in the order of the settings. -/
def setDataSlice [Machine] [Scalar α] (e : Engine α) (rows cols : Nat) (buffer : Array α)
    (stride : Nat) : Checked (List Warning) × Engine α :=
  match readStrided buffer rows cols stride e.settings.order with
  | .error x => (.error x, e)
  | .ok g => e.setData g

/-- The initial centres replaced; there is one for each cluster, with the features of the data. -/
def setInitialCentres (e : Engine α) (g : Grid α) : Checked Unit × Engine α :=
  match e.storedData with
  | .error x => (.error x, e)
  | .ok data =>
    if g.rows = e.settings.clusters ∧ g.cols = data.cols then
      (.ok (), { e with initialCentres := some g })
    else (.error (.invalid (.centresShape e.settings.clusters data.cols g.rows g.cols)), e)

/-- The initial centres replaced by a strided matrix in the order of the settings. -/
def setInitialCentresSlice [Scalar α] (e : Engine α) (buffer : Array α) (stride : Nat) :
    Checked Unit × Engine α :=
  match e.storedData with
  | .error x => (.error x, e)
  | .ok data =>
    match readStrided buffer e.settings.clusters data.cols stride e.settings.order with
    | .error x => (.error x, e)
    | .ok g => e.setInitialCentres g

/-! ## Computing -/

/-- The centres that the seeding of the settings copies, if it copies any. -/
def copiedCentres (e : Engine α) (data : Grid α) : Checked (Option (Grid α)) :=
  if e.settings.seeding = .supplied then
    match e.initialCentres with
    | none => .error (.missing .initialCentres)
    | some g =>
      if g.rows ≠ e.settings.clusters then
        .error (.invalid (.centresCount g.rows e.settings.clusters))
      else if g.cols ≠ data.cols then .error (.invalid (.centresFeatures g.cols data.cols))
      else .ok (some g)
  else .ok none

/-- Transfers need more than one cluster and fewer clusters than samples. -/
def checkTransfers (e : Engine α) (data : Grid α) : Checked Unit :=
  let k := e.settings.clusters
  if e.settings.algorithm = .hartiganWong ∧ (k = 1 ∨ data.rows ≤ k) then
    .error (.incompatible k data.rows)
  else .ok ()

/-- What a computation starts from: data, copied centres, and the number of runs. -/
def prepare (e : Engine α) : Checked (Grid α × Option (Grid α) × Nat) := do
  let data ← e.storedData
  let copied ← e.copiedCentres data
  e.checkTransfers data
  return (data, copied, if copied.isSome then min e.settings.runs 1 else e.settings.runs)

section Fit

variable [Machine] [Add α] [Sub α] [Mul α] [Div α] [Neg α] [LT α] [LE α] [DecidableLT α]
  [DecidableLE α] [BEq α] [Scalar α]

/-- The model of the stored data, with the conditions met on the way. -/
def fitted (e : Engine α) (G : Generator σ α) (entropy : σ) : Outcome (Model α × List Warning) := do
  let (data, copied, runs) ← Outcome.ofChecked e.prepare
  let ignored := if runs < e.settings.runs then [Warning.runsIgnored e.settings.runs] else []
  let model ← (Plan.ofSettings e.settings).fitGrid G.toSampler data e.settings.clusters copied
    runs (G.start e.settings.seed entropy)
  let limit := if model.converged then [] else [Warning.iterationLimit e.settings.maxIterations]
  return (model, ignored ++ limit)

/-- The stored data clustered. A model is published only when all has succeeded. -/
def compute (e : Engine α) (G : Generator σ α) (entropy : σ) : Outcome (List Warning) × Engine α :=
  match e.settings.validate with
  | .error x => (.error (.error x), e)
  | .ok () =>
    let (warning, e) := e.reduceClusters
    match e.fitted G entropy with
    | .error f => (.error f, e)
    | .ok (model, warnings) => (.ok (warning.toList ++ warnings), { e with model := some model })

/-- Data stored and clustered; the labels of its samples. -/
def fitPredict (e : Engine α) (G : Generator σ α) (g : Grid α) (entropy : σ) :
    Outcome (Array Nat) × Engine α :=
  match e.setData g with
  | (.error x, e) => (.error (.error x), e)
  | (.ok _, e) =>
    match e.compute G entropy with
    | (.error f, e) => (.error f, e)
    | (.ok _, e) => (Outcome.ofChecked (e.published.map (·.labels)), e)

end Fit

/-! ## Reading -/

/-- A model has been published. -/
def isComputed (e : Engine α) : Bool := e.model.isSome

/-- The labels of the samples. -/
def labels (e : Engine α) : Checked (Array Nat) := e.published.map (·.labels)

/-- The centres. -/
def centres (e : Engine α) : Checked (Grid α) := e.published.map (·.centres)

/-- Sizes and quality of the model. -/
def info (e : Engine α) : Checked (ModelInfo α) := do
  let m ← e.published
  let data ← e.storedData
  return ⟨data.rows, data.cols, m.centres.rows, m.iterations, m.inertia⟩

/-- A buffer filled with values from its front on. -/
def fillFront {β : Type} (out values : Array β) (short : Nat → TooShort) : Filling β :=
  if out.size < values.size then (.error (.tooShort values.size (short out.size)), out)
  else (.ok (), writeAt (fun k : Fin values.size => k.val) (fun k => values[k.val]) out)

/-- A buffer filled with a result of numbers. -/
def fillNumbers [Scalar α] (e : Engine α) (q : Query) (out : Array α) : Filling α :=
  match q with
  | .info =>
    match e.info with
    | .error x => (.error x, out)
    | .ok i => fillFront out #[Scalar.ofNat i.samples, Scalar.ofNat i.features,
        Scalar.ofNat i.clusters, Scalar.ofNat i.iterations, i.inertia] .infoBuffer
  | .centres =>
    match e.centres with
    | .error x => (.error x, out)
    | .ok g => copyOut g out e.settings.order
  | .labels => (.error (.wrongForm .labelsAsNumbers), out)

/-- A result of numbers copied to the front of a buffer. -/
def readNumbers [Scalar α] (e : Engine α) (q : Query) (out : Array α) : Checked (Array α) :=
  (e.fillNumbers q out).result

/-- A buffer filled with a result of integers. -/
def fillIntegers (e : Engine α) (q : Query) (out : Array Nat) : Filling Nat :=
  match q with
  | .labels =>
    match e.labels with
    | .error x => (.error x, out)
    | .ok labels => fillFront out labels .labelBuffer
  | .info => (.error (.wrongForm .infoAsIntegers), out)
  | .centres => (.error (.wrongForm .centresAsIntegers), out)

/-- A result of integers copied to the front of a buffer. -/
def readIntegers (e : Engine α) (q : Query) (out : Array Nat) : Checked (Array Nat) :=
  (e.fillIntegers q out).result

/-! ## New rows -/

/-- The centres, for rows with their features. -/
def centresFor (e : Engine α) (g : Grid α) : Checked (Grid α) := do
  let centres ← e.centres
  if g.rows = 0 then .error (.invalid .noRows)
  else if g.cols ≠ centres.cols then .error (.invalid (.features centres.cols g.cols))
  else .ok centres

section Rows

variable [Add α] [Sub α] [Mul α] [Div α] [Neg α] [LT α] [LE α] [DecidableLT α] [DecidableLE α]
  [BEq α] [Scalar α]

omit [Sub α] [Div α] [LE α] [DecidableLE α] in
/-- The label of the nearest centre for each row of a matrix. -/
def nearestLabels [Machine] {n K d : Nat} [Positive K] (pinned : Option Lanes.Width)
    (data : Matrix α n d) (centres : Matrix α K d) : Vector (Fin K) n :=
  let width := Lanes.assignmentWidth (Scalar.bytes α) K pinned
  (Assignment.inBlocks width assignmentBlock data centres false
    (Vector.replicate n (Positive.first K))).labels

omit [Sub α] [Div α] [LE α] [DecidableLE α] in
/-- The label of the nearest centre for each row. -/
def predict [Machine] (e : Engine α) (g : Grid α) : Outcome (Array Nat) := do
  let centres ← Outcome.ofChecked (e.centresFor g)
  let some data := g.withCols? centres.cols | .error (.breach .shapes)
  if _ : Positive centres.rows then
    return ((nearestLabels e.settings.width data centres.entries).map (·.val)).toArray
  else .error (.breach .range)

omit [Sub α] [Div α] [LE α] [DecidableLE α] in
/-- The labels of the rows of a strided matrix in the order of the settings. -/
def predictSlice [Machine] (e : Engine α) (rows : Nat) (buffer : Array α) (stride : Nat) :
    Outcome (Array Nat) := do
  let centres ← Outcome.ofChecked e.centres
  let g ← Outcome.ofChecked (readStrided buffer rows centres.cols stride e.settings.order)
  e.predict g

omit [Sub α] [Div α] [LT α] [LE α] [DecidableLT α] [DecidableLE α] [BEq α] in
/-- The distance from each row to every centre. -/
def transform (e : Engine α) (g : Grid α) : Outcome (Grid α) := do
  let centres ← Outcome.ofChecked (e.centresFor g)
  let some data := g.withCols? centres.cols | .error (.breach .shapes)
  return Grid.ofMatrix (euclideanDistances data centres.entries false)

omit [Sub α] [Div α] [LT α] [LE α] [DecidableLT α] [DecidableLE α] [BEq α] in
/-- The distances from the rows of a strided matrix in the order of the settings. -/
def transformSlice (e : Engine α) (rows : Nat) (buffer : Array α) (stride : Nat) :
    Outcome (Grid α) := do
  let centres ← Outcome.ofChecked e.centres
  let g ← Outcome.ofChecked (readStrided buffer rows centres.cols stride e.settings.order)
  e.transform g

end Rows

end Engine

end Proximity
