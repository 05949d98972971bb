import Proximity.Clustering.Assignment
import Proximity.Clustering.Samples
import Proximity.Lanes.SquaredDistance

/-!
# MacQueen's rounds

Samples are visited in order. A sample that changes its label moves both centres at once, so that
later samples of the same round see them where they are then.

1. `MacQueen.start`: labels by the initial centres, and centres at the means.
2. `MacQueen.visit`: one sample.
3. `MacQueen.step`: a round.
-/

namespace Proximity.MacQueen

variable {α : Type} [Add α] [Sub α] [Mul α] [Div α] [Neg α] [LT α] [DecidableLT α] [BEq α]
  [Scalar α] {n K d : Nat}

/-- A sum divided by a number of members; with no members it stays. -/
def meanOf (sum : Point α d) (count : Nat) : Point α d :=
  if 0 < count then sum.divideBy (Scalar.ofNat count) else sum

/-- All samples labelled by the initial centres, and the centres moved to the means. -/
def start [Clustered n K] (w : Lanes.Width) (data : Samples α n d) (s : RunState α n K d) :
    RunState α n K d :=
  let a := Assignment.inBlocks w assignmentBlock data.rows s.centres.current true s.labels.current
  let t := a.totals.getD Totals.zero
  { s with
    labels := { s.labels with current := a.labels }
    centres := { s.centres with current := Vector.zipWith meanOf t.sums t.counts }
    counts := t.counts }

/-- The nearest of some centres so far. -/
structure Closest (α : Type) (K : Nat) where
  label : Fin K
  distance : Extended α

/-- The first centre at the least distance below infinity, or the first one if there is none. -/
def closest [Positive K] (L : Nat) (x : Strided α d) (centres : Matrix α K d) : Fin K :=
  (Fin.foldl K (fun (best : Closest α K) j =>
    let dist := Lanes.squaredDistance L x (Strided.ofVector (centres.get j))
    if Extended.lt (some dist) best.distance then ⟨j, some dist⟩ else best)
    ⟨Positive.first K, none⟩).label

/-- The sum of the members of a cluster. -/
def memberSum (data : Samples α n d) (labels : Vector (Fin K) n) (l : Fin K) : Point α d :=
  Fin.foldl n (fun sum i => if labels.get i = l then sum.add (data.point i) else sum) Point.origin

/-- The centre of a cluster moved to the mean of its members. -/
def recompute (data : Samples α n d) (s : RunState α n K d) (l : Fin K) : RunState α n K d :=
  { s with centres.current :=
      s.centres.current.put l (meanOf (memberSum data s.labels.current l) (s.counts.get l)) }

/-- Sample `i` moved from one cluster to another, and both centres with it. -/
def move (data : Samples α n d) (s : RunState α n K d) (i : Fin n) (source target : Fin K) :
    RunState α n K d :=
  let counts := s.counts.put target (s.counts.get target + 1)
  let counts := counts.put source (counts.get source - 1)
  let s := { s with labels := { s.labels with current := s.labels.current.put i target }, counts }
  recompute data (recompute data s target) source

/-- Sample `i` labelled by the nearest of the centres as they are; with `update` off the centres
stay. -/
def visit [Clustered n K] (w : Lanes.Width) (data : Samples α n d) (update : Bool)
    (s : RunState α n K d) (i : Fin n) : RunState α n K d :=
  have : Positive K := Clustered.positive i
  let target := closest (w.lanes (Scalar.bytes α)) (data.sample i) s.centres.current
  let source := s.labels.current.get i
  if source = target then s
  else if update then move data s i source target
  else { s with labels.current := s.labels.current.put i target }

/-- The state that the samples of a round are visited from. -/
def opening (s : RunState α n K d) : RunState α n K d :=
  { s with
    centres := { s.centres with current := s.centres.previous }
    labels := { s.labels with current := s.labels.previous } }

/-- The state before sample `i` of a round. -/
def sweep [Clustered n K] (w : Lanes.Width) (data : Samples α n d) (update : Bool)
    (s : RunState α n K d) (samples : List (Fin n)) : RunState α n K d :=
  samples.foldl (visit w data update) (opening s)

/-- A round; with `update` off only the labels change. -/
def step [Clustered n K] (w : Lanes.Width) (data : Samples α n d) (update : Bool)
    (s : RunState α n K d) : RunState α n K d :=
  let s := sweep w data update s (List.finRange n)
  if update then s.computeShift else s

end Proximity.MacQueen
