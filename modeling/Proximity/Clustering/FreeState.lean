import Proximity.Clustering.State

/-!
# States of any shape

A `FreeState` holds what a `State` holds, but nothing ties its parts together: current and previous
centres may differ in shape, there may be more or fewer counts than centres, and a label may name no
cluster. Its operations agree with those of `State` where the shapes fit.

1. `FreeState` and the states it comes from.
2. `swap`, `scaleCentres`, `computeShift` and the tests of a round.
-/

namespace Proximity

/-- Current and previous centres and labels, and sizes of clusters, of any shapes. -/
structure FreeState (α : Type) where
  centres : Pair (Grid α)
  labels : Pair (Array Nat)
  counts : Array Nat
  /-- Norm of the centres that the last shift started from. -/
  previousNorm : α

/-- The numbers of the labels. -/
def labelNumbers {n K : Nat} (labels : Vector (Fin K) n) : Array Nat :=
  (labels.map (·.val)).toArray

namespace FreeState

variable {α : Type}

/-- A state of a run. -/
def ofRun {n K d : Nat} (s : RunState α n K d) : FreeState α where
  centres := ⟨.ofMatrix s.centres.current, .ofMatrix s.centres.previous⟩
  labels := ⟨labelNumbers s.labels.current, labelNumbers s.labels.previous⟩
  counts := s.counts.toArray
  previousNorm := s.previousNorm

/-- Given centres and labels, no members, and previous centres at the origin. -/
def start [Scalar α] (centres : Grid α) (labels : Array Nat) : FreeState α where
  centres := ⟨centres, .const centres.rows centres.cols Scalar.zero⟩
  labels := ⟨labels, labels⟩
  counts := Array.replicate centres.rows 0
  previousNorm := Scalar.zero

/-- Current and previous centres exchanged. -/
def swapCentres (s : FreeState α) : FreeState α := { s with centres := s.centres.swap }

/-- Current and previous centres and labels exchanged. -/
def swap (s : FreeState α) : FreeState α :=
  { s with centres := s.centres.swap, labels := s.labels.swap }

/-- No label changed in the round. -/
def labelsUnchanged (s : FreeState α) : Bool := s.labels.current == s.labels.previous

variable [Add α] [Sub α] [Mul α] [Div α] [Scalar α]

/-- Sums turned into means, for as many centres as have a count. A count of zero becomes one. -/
def scaleCentres (s : FreeState α) : FreeState α :=
  let sums := s.centres.current
  let counts := s.counts.mapIdx fun l c => if l < sums.rows ∧ c = 0 then 1 else c
  let mean (l : Fin sums.rows) : Point α sums.cols :=
    match counts[l.val]? with
    | some c => (sums.entries.get l).divideBy (Scalar.ofNat c)
    | none => sums.entries.get l
  { s with counts, centres := { s.centres with current := .ofMatrix (Vector.ofFn mean) } }

/-- The previous centres replaced by their difference from the current ones, if these can be spread to
the shape of the previous ones. -/
def computeShift (s : FreeState α) : Option (FreeState α) :=
  let previous := s.centres.previous
  (s.centres.current.spread? previous.rows previous.cols).map fun current =>
    { s with
      previousNorm := previous.frobeniusNorm
      centres :=
        { s.centres with
          previous := .ofMatrix (Vector.zipWith Point.sub previous.entries current) } }

/-- The norm of the shift. -/
def shiftNorm (s : FreeState α) : α := s.centres.previous.frobeniusNorm

end FreeState

end Proximity
