import Proximity.Clustering.FreeState
import Proximity.Clustering.Settings
import Proximity.Lanes.Width

/-!
# Samples without clusters

A sample is in a cluster, so with samples but no clusters most calls have no result: every call that
looks up the cluster of a sample breaks off. What is left are calls that make no round and, where
they read a centre, do it for points without coordinates, whose centres take no room. Labels stay
zero, though there is no cluster of that number.

1. `seed`: the seedings of no centres.
2. `starts`: the algorithms that can be started.
-/

namespace Proximity.Vacant

variable {α : Type} [Scalar α] {n d : Nat}

/-- The state of samples without clusters. -/
def state (n d : Nat) : FreeState α :=
  .start (.const 0 d Scalar.zero) (Array.replicate n 0)

omit [Scalar α] in
/-- The seeding of no centres. Random samples and given centres place none; the other seedings look up
the cluster of a sample or the first centre. -/
def seed (how : Seeding) (supplied : Option (Grid α)) (d : Nat) : Outcome Unit :=
  match how with
  | .randomSamples => .ok ()
  | .randomPartitions | .plusPlus => .error (.breach .range)
  | .supplied =>
    match supplied with
    | none => .error (.error (.missing .initialCentres))
    | some given =>
      if (given.spread? 0 d).isSome then .ok () else .error (.breach .shapes)

/-- The algorithms that can be started and have an inertia without a round. Elkan's method starts from
the distances to the first centre, and the rows of its bounds are not empty. -/
def starts [Machine] (bytes : Nat) (algorithm : Algorithm) (d : Nat) (pinned : Option Lanes.Width) :
    Bool :=
  match algorithm with
  | .lloyd => d = 0
  | .elkan => d = 0 && 0 < (Lanes.boundWidth bytes 0 pinned).padding bytes
  | .macQueen | .hartiganWong => false

end Proximity.Vacant
