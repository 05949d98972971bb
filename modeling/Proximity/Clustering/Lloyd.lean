import Proximity.Clustering.Assignment
import Proximity.Clustering.Samples

/-!
# Lloyd's rounds

A round labels every sample by its nearest previous centre, and then moves every centre to the mean
of its members.
-/

namespace Proximity.Lloyd

variable {α : Type} [Add α] [Sub α] [Mul α] [Div α] [Neg α] [LT α] [DecidableLT α] [BEq α]
  [Scalar α] {n K d : Nat}

/-- A round; with `update` off only the labels change. -/
def step [Clustered n K] (w : Lanes.Width) (data : Samples α n d) (update : Bool)
    (s : RunState α n K d) : RunState α n K d :=
  let a := Assignment.inBlocks w assignmentBlock data.rows s.centres.previous update s.labels.current
  let s := { s with labels.current := a.labels }
  match a.totals with
  | some t => s.recentre t
  | none => s

end Proximity.Lloyd
