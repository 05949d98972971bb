import Proximity.Clustering.Transfers

/-!
# Transfers among few centres

A transfer needs a cluster to leave and another one to join. `transfersFrom` takes any number of
centres: with two or more it is `hartiganWong`, and with fewer it says how far the same procedure
gets. Every sample is compared with the first centre and with the one after it. After a single
centre comes `beyond`, what follows the last centre in storage, if anything does.

1. `roundsAmongFew`: the rounds of fewer than two clusters.
2. `beyondNearer`: the comparison with what follows a single centre.
3. `transfersFrom`: transfers from any number of centres.
-/

namespace Proximity

variable {α : Type} [Add α] [Sub α] [Mul α] [Div α] [LT α] [LE α] [DecidableLT α] [DecidableLE α]
  [Scalar α] {n K d : Nat}

namespace Transfers

/-- The number of rounds and whether they settled, for fewer than two clusters. No round is made when
a cluster is empty, and the first one settles when no sample can leave its cluster; otherwise there is
no cluster to go to. -/
def roundsAmongFew (n K limit : Nat) : Option (Nat × Bool) :=
  if n < K then some (0, true)
  else if limit = 0 then some (0, false)
  else if n ≤ K then some (1, true)
  else none

/-- Some sample is nearer to a point than to every centre. -/
def beyondNearer (data : Samples α n d) (centres : Matrix α K d) (beyond : Point α d) : Bool :=
  (List.finRange n).any fun i => (List.finRange K).all fun l =>
    Metric.squared (data.point i) beyond < Metric.squared (data.point i) (centres.get l)

/-- The run that ends with a labelling. -/
def finish (data : Samples α n d) (labels : Vector (Fin K) n) (iterations : Nat)
    (converged : Bool) : TransferRun α n K d :=
  let centres := (means data labels).1
  { centres, labels, iterations, converged, inertia := sumOfSquares data labels centres }

/-- Fewer than two clusters, all samples in the first one. -/
def amongFew [Clustered n K] (data : Samples α n d) (centres : Matrix α K d)
    (beyond : Option (Point α d)) (limit : Nat) : Outcome (TransferRun α n K d) :=
  let comparable : Bool := n = 0 || beyond.any fun p => !beyondNearer data centres p
  match roundsAmongFew n K limit with
  | some (iterations, converged) =>
    if comparable then
      .ok (finish data (Vector.ofFn (Clustered.first K)) iterations converged)
    else .error (.breach .range)
  | none => .error (.breach .range)

end Transfers

/-- Clusters by transfers from any number of centres. -/
def transfersFrom [Clustered n K] (data : Samples α n d) (centres : Matrix α K d)
    (beyond : Option (Point α d)) (limit : Nat) : Outcome (TransferRun α n K d) :=
  if hK : 1 < K then .ok (hartiganWong hK data centres limit)
  else Transfers.amongFew data centres beyond limit

end Proximity
