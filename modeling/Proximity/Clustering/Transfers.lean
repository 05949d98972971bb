import Proximity.Clustering.Samples
import Proximity.Clustering.State
import Proximity.Metric.Table

/-!
# The transfers of Hartigan and Wong

Every sample knows its nearest cluster (`first`) and the second nearest one (`second`). A transfer
moves a sample where the sum of squares falls; what is lost and gained by a transfer is the squared
distance times `n / (n - 1)` in the cluster that is left and `n / (n + 1)` in the one that is joined.

1. `assignFirst`: nearest and second nearest centres, with distances given up early.
2. `optimalStage`: every sample may go to any cluster, as far as the clusters are live: were changed
   in the last stage, or in the last `n` steps.
3. `quickStage`: samples go back and forth between `first` and `second` until `n` steps in a row were
   quiet, or for fifty steps per sample.
4. `hartiganWong`: both stages in turns.

Steps are counted from one, since a cluster that no step has changed has zero in `changed`.
-/

namespace Proximity

variable {α : Type} [Add α] [Sub α] [Mul α] [Div α] [LT α] [LE α] [DecidableLT α] [DecidableLE α]
  [Scalar α] {n K d : Nat}

/-- The state of the transfers. -/
structure Transfers (α : Type) (n K d : Nat) where
  centres : Matrix α K d
  /-- The cluster of each sample. -/
  first : Vector (Fin K) n
  /-- Another cluster for each sample, the most likely one to go to. -/
  second : Vector (Fin K) n
  sizes : Vector Nat K
  /-- Factors of the cost of leaving a cluster. -/
  leave : Vector α K
  /-- Factors of the cost of joining a cluster. -/
  join : Vector α K
  /-- The step at which each cluster was last changed. -/
  changed : Vector Int K
  /-- The cost of leaving its cluster, for each sample. -/
  removal : Vector α n
  /-- Clusters that the last quick stage changed. -/
  touched : Vector Bool K
  /-- The step up to which each cluster is live. -/
  live : Vector Int K
  /-- Steps since the last transfer. -/
  quiet : Nat

namespace Transfers

/-- The factor of leaving a cluster of one. -/
def prohibitive : α := Scalar.ofNat (Nat.pow 10 30)

/-- Squared distance between two points, or nothing once the sum reaches a bound. -/
def distanceBelow (x y : Point α d) (bound : α) : Option α :=
  (List.finRange d).foldlM (fun acc j =>
    let acc := acc + (x.get j - y.get j) * (x.get j - y.get j)
    if bound ≤ acc then none else some acc) Scalar.zero

/-! ## The first assignment -/

/-- The two nearest centres so far, with their distances. -/
structure TwoNearest (α : Type) (K : Nat) where
  first : Fin K
  second : Fin K
  nearest : α
  next : α

/-- The first two centres in order of distance. -/
def TwoNearest.start (hK : 1 < K) (x : Point α d) (centres : Matrix α K d) : TwoNearest α K :=
  let a : Fin K := ⟨0, Nat.lt_trans Nat.zero_lt_one hK⟩
  let b : Fin K := ⟨1, hK⟩
  let da := Metric.squared x (centres.get a)
  let db := Metric.squared x (centres.get b)
  if db < da then ⟨b, a, db, da⟩ else ⟨a, b, da, db⟩

/-- Centre `l` considered. -/
def TwoNearest.consider (x : Point α d) (centres : Matrix α K d) (t : TwoNearest α K) (l : Fin K) :
    TwoNearest α K :=
  match distanceBelow x (centres.get l) t.next with
  | none => t
  | some v =>
    if v < t.nearest then ⟨l, t.first, v, t.nearest⟩ else { t with second := l, next := v }

/-- The two nearest centres of a point. -/
def twoNearest (hK : 1 < K) (x : Point α d) (centres : Matrix α K d) : TwoNearest α K :=
  ((List.finRange K).drop 2).foldl (TwoNearest.consider x centres)
    (TwoNearest.start hK x centres)

/-- The means of a labelling; a cluster with no members is at the origin. -/
def means (data : Samples α n d) (labels : Vector (Fin K) n) : Matrix α K d × Vector Nat K :=
  let t : Totals α K d := Totals.ofLabels data.point labels
  (Vector.zipWith (fun sum c => if c = 0 then sum else sum.divideBy (Scalar.ofNat c)) t.sums t.counts,
    t.counts)

/-- The factor of leaving a cluster of `a` members. -/
def leaveFactor (a : α) : α :=
  if Scalar.one < a then a / (a - Scalar.one) else prohibitive

/-- The factor of joining a cluster of `a` members. -/
def joinFactor (a : α) : α := a / (a + Scalar.one)

/-- Every sample with its two nearest centres, and the centres moved to the means. -/
def assignFirst (hK : 1 < K) (data : Samples α n d) (centres : Matrix α K d) :
    Transfers α n K d :=
  let nearest := Vector.ofFn fun i => twoNearest hK (data.point i) centres
  let first := nearest.map (·.first)
  let (centres, sizes) := means data first
  { centres, first, second := nearest.map (·.second), sizes
    leave := sizes.map fun c => leaveFactor (Scalar.ofNat c)
    join := sizes.map fun c => joinFactor (Scalar.ofNat c)
    changed := Vector.replicate K (-1)
    removal := Vector.replicate n Scalar.zero
    touched := Vector.replicate K true
    live := Vector.replicate K 0
    quiet := 0 }

/-! ## A transfer -/

/-- The squared distance from sample `i` to the centre of cluster `l`. -/
def distance (s : Transfers α n K d) (data : Samples α n d) (i : Fin n) (l : Fin K) : α :=
  Metric.squared (data.point i) (s.centres.get l)

/-- Sample `i` moved from cluster `a` to cluster `b`, with centres, sizes and factors. -/
def transfer (s : Transfers α n K d) (data : Samples α n d) (i : Fin n) (a b : Fin K) :
    Transfers α n K d :=
  let x := data.point i
  let na : α := Scalar.ofNat (s.sizes.get a)
  let nb : α := Scalar.ofNat (s.sizes.get b)
  let less := na - Scalar.one
  let more := nb + Scalar.one
  let centres := s.centres.put a
    (Vector.zipWith (fun c v => (c * na - v) / less) (s.centres.get a) x)
  let centres := centres.put b
    (Vector.zipWith (fun c v => (c * nb + v) / more) (centres.get b) x)
  let sizes := s.sizes.put a (s.sizes.get a - 1)
  let sizes := sizes.put b (sizes.get b + 1)
  { s with
    centres, sizes
    join := (s.join.put a (less / na)).put b (more / (more + Scalar.one))
    leave := (s.leave.put a (leaveFactor less)).put b (more / nb)
    first := s.first.put i b
    second := s.second.put i a }

/-! ## The optimal stage -/

/-- The removal cost of sample `i` brought up to date. -/
def refresh (s : Transfers α n K d) (data : Samples α n d) (i : Fin n) : Transfers α n K d :=
  let a := s.first.get i
  { s with removal := s.removal.put i (s.distance data i a * s.leave.get a) }

/-- The state in which an optimal step compares costs. A cluster that has not changed since the last
optimal stage has zero in `changed`, and the costs of leaving it still hold. -/
def refreshOptimal (s : Transfers α n K d) (data : Samples α n d) (i : Fin n) : Transfers α n K d :=
  if s.changed.get (s.first.get i) = 0 then s else s.refresh data i

/-- The best cluster to join so far, with its cost. -/
structure Target (α : Type) (K : Nat) where
  cluster : Fin K
  cost : α

/-- Cluster `l` considered as a target at a step. Once the sample's own cluster has left the live
set, only live clusters come into question. -/
def Target.consider (s : Transfers α n K d) (data : Samples α n d) (step : Int) (i : Fin n)
    (t : Target α K) (l : Fin K) : Target α K :=
  let a := s.first.get i
  if (s.live.get a ≤ step ∧ s.live.get l ≤ step) ∨ l = a ∨ l = s.second.get i then t
  else
    match distanceBelow (data.point i) (s.centres.get l) (t.cost / s.join.get l) with
    | some v => ⟨l, v * s.join.get l⟩
    | none => t

/-- The cheapest cluster for sample `i` to join. -/
def bestTarget (s : Transfers α n K d) (data : Samples α n d) (step : Int) (i : Fin n) :
    Target α K :=
  (List.finRange K).foldl (Target.consider s data step i)
    ⟨s.second.get i, s.distance data i (s.second.get i) * s.join.get (s.second.get i)⟩

/-- Clusters `a` and `b` marked as changed at a step of the optimal stage, and live for `n` steps. -/
def markOptimal (s : Transfers α n K d) (step : Int) (a b : Fin K) : Transfers α n K d :=
  { s with
    quiet := 0
    live := (s.live.put a (n + step)).put b (n + step)
    changed := (s.changed.put a step).put b step }

/-- Sample `i` in the optimal stage. -/
def optimalStep (data : Samples α n d) (s : Transfers α n K d) (i : Fin n) : Transfers α n K d :=
  let step : Int := i.val + 1
  let s : Transfers α n K d := { s with quiet := s.quiet + 1 }
  let a := s.first.get i
  if s.sizes.get a = 1 then s
  else
    let s := s.refreshOptimal data i
    let t := s.bestTarget data step i
    if s.removal.get i ≤ t.cost then { s with second := s.second.put i t.cluster }
    else (s.markOptimal step a t.cluster).transfer data i a t.cluster

/-- The samples of an optimal stage, one after another, until `n` steps have been quiet. The flag says
that this happened. -/
def optimalSteps (data : Samples α n d) :
    List (Fin n) → Transfers α n K d → Transfers α n K d × Bool
  | [], s => (s, false)
  | i :: rest, s =>
    let s := optimalStep data s i
    if s.quiet = n then (s, true) else optimalSteps data rest s

/-- Clusters that the last quick stage changed are live for the whole stage. -/
def openOptimal (s : Transfers α n K d) : Transfers α n K d :=
  { s with
    live := Vector.zipWith (fun t l => if t then (n : Int) + 1 else l) s.touched s.live }

/-- Live steps counted from the next stage. -/
def closeOptimal (s : Transfers α n K d) : Transfers α n K d :=
  { s with touched := Vector.replicate K false, live := s.live.map (· - n) }

/-- An optimal stage, and whether `n` steps without a transfer have passed. -/
def optimalStage (data : Samples α n d) (s : Transfers α n K d) : Transfers α n K d × Bool :=
  let (s, settled) := optimalSteps data (List.finRange n) s.openOptimal
  if settled then (s, true) else (s.closeOptimal, false)

/-! ## The quick stage -/

/-- Clusters `a` and `b` marked as changed at a step of the quick stage, for `n` steps. -/
def markQuick (s : Transfers α n K d) (step : Int) (a b : Fin K) : Transfers α n K d :=
  { s with
    quiet := 0
    touched := (s.touched.put a true).put b true
    changed := (s.changed.put a (step + n)).put b (step + n) }

/-- The state in which a quick step compares costs. The cost of leaving a cluster is brought up to date
for `n` steps after its last change, which is a visit to every sample. -/
def refreshQuick (s : Transfers α n K d) (data : Samples α n d) (step : Int) (i : Fin n) :
    Transfers α n K d :=
  if step ≤ s.changed.get (s.first.get i) then s.refresh data i else s

/-- Sample `i` at a step of the quick stage, and whether it was transferred. -/
def quickStep (data : Samples α n d) (s : Transfers α n K d) (step : Int) (i : Fin n) :
    Transfers α n K d × Bool :=
  let a := s.first.get i
  let b := s.second.get i
  if s.sizes.get a = 1 then (s, false)
  else
    let s := s.refreshQuick data step i
    let recent : Bool := step < s.changed.get a || step < s.changed.get b
    let bound := s.removal.get i / s.join.get b
    if recent && (distanceBelow (data.point i) (s.centres.get b) bound).isSome then
      ((s.markQuick step a b).transfer data i a b, true)
    else (s, false)

/-- Steps of the quick stage for as many as are left, starting after `done` steps of which the last
`still` were quiet. The flag says that `n` quiet steps in a row were reached. -/
def quickSteps (data : Samples α n d) (hn : 0 < n) :
    (left done still : Nat) → Transfers α n K d → Transfers α n K d × Bool
  | 0, _, _, s => (s, false)
  | left + 1, done, still, s =>
    let (s, transferred) := quickStep data s (done + 1 : Nat) ⟨done % n, Nat.mod_lt _ hn⟩
    let still := if transferred then 0 else still + 1
    if still = n then (s, true) else quickSteps data hn left (done + 1) still s

/-- Steps of the quick stage for each sample. -/
def quickStepsPerSample : Nat := 50

/-- A quick stage, and whether it settled. -/
def quickStage (data : Samples α n d) (hn : 0 < n) (s : Transfers α n K d) :
    Transfers α n K d × Bool :=
  quickSteps data hn (quickStepsPerSample * n - 1) 0 0 s

/-! ## Rounds -/

/-- Both stages in turns for as many rounds as are left. The number is that of the rounds made, and
the flag says that the transfers settled. -/
def rounds (data : Samples α n d) (hn : 0 < n) :
    (left done : Nat) → Transfers α n K d → Transfers α n K d × Nat × Bool
  | 0, done, s => (s, done, false)
  | left + 1, done, s =>
    let (s, settled) := optimalStage data s
    if settled then (s, done + 1, true)
    else
      let (s, settled) := quickStage data hn s
      if !settled then (s, done + 1, false)
      else if K = 2 then (s, done + 1, true)
      else rounds data hn left (done + 1) { s with changed := Vector.replicate K 0 }

/-- The within-cluster sum of squares about given centres, cluster by cluster. -/
def sumOfSquares (data : Samples α n d) (labels : Vector (Fin K) n) (centres : Matrix α K d) : α :=
  let perCluster : Vector α K := Fin.foldl n (fun w i =>
    let l := labels.get i
    w.put l (w.get l + Metric.squared (data.point i) (centres.get l))) (Vector.replicate K Scalar.zero)
  sumOver K fun l => perCluster.get l

end Transfers

/-- The outcome of the transfers. -/
structure TransferRun (α : Type) (n K d : Nat) where
  centres : Matrix α K d
  labels : Vector (Fin K) n
  iterations : Nat
  converged : Bool
  inertia : α

/-- Clusters by transfers from given centres. No transfer is made when a cluster is empty after the
first assignment. -/
def hartiganWong (hK : 1 < K) (data : Samples α n d) (centres : Matrix α K d) (limit : Nat) :
    TransferRun α n K d :=
  let s := Transfers.assignFirst hK data centres
  let (s, iterations, converged) :=
    if hn : 0 < n ∧ s.sizes.all (· ≠ 0) then s.rounds data hn.1 limit 0 else (s, 0, true)
  let centres := (Transfers.means data s.first).1
  { centres, labels := s.first, iterations, converged
    inertia := Transfers.sumOfSquares data s.first centres }

end Proximity
