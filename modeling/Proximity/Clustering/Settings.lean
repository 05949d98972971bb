import Proximity.Lanes.Width
import Proximity.Matrix.Storage

/-!
# Settings of a clustering

What the caller chooses: the number of clusters, how the centres are seeded and moved, when to stop,
and how data are exchanged. `Settings.validate` refuses what no run could be made with.
-/

namespace Proximity

/-- How labels and centres are improved. -/
inductive Algorithm where
  /-- All samples are labelled, then all centres are moved. -/
  | lloyd
  /-- The same with bounds that save distances. -/
  | elkan
  /-- Centres move with every sample that changes its label. -/
  | macQueen
  /-- Single transfers that lower the sum of squares. -/
  | hartiganWong
  deriving Repr, DecidableEq

/-- How the first centres of a run are found. -/
inductive Seeding where
  /-- Different samples. -/
  | randomSamples
  /-- Means of a random labelling. -/
  | randomPartitions
  /-- Samples far from the centres already chosen. -/
  | plusPlus
  /-- Centres given by the caller. -/
  | supplied
  deriving Repr, DecidableEq

/-- The choices of the caller. -/
structure Settings where
  clusters : Nat := 1
  algorithm : Algorithm := .lloyd
  seeding : Seeding := .randomSamples
  /-- Runs to make; the one with the lowest inertia is kept. -/
  runs : Nat := 1
  maxIterations : Nat := 300
  /-- Bound on the shift of the centres relative to their norm. -/
  tolerance : Float := 1e-4
  /-- Seed of all random choices; without one every fit makes choices of its own. -/
  seed : Option UInt64 := none
  /-- Order of the buffers exchanged with the caller. -/
  order : Order := .columnMajor
  /-- Kernel width to use in place of the automatic one. -/
  width : Option Lanes.Width := none

/-- A run can be made with the settings. -/
def Settings.validate (s : Settings) : Checked Unit :=
  if s.clusters = 0 then .error (.invalid .noClusters)
  else if s.runs = 0 then .error (.invalid .noRuns)
  else if s.maxIterations = 0 then .error (.invalid .noIterations)
  else if ¬ 0 ≤ s.tolerance then .error (.invalid (.tolerance (Scalar.decimal s.tolerance)))
  else .ok ()

end Proximity
