import Proximity.Clustering.Samples
import Proximity.Clustering.State
import Proximity.Extended
import Proximity.Lanes.Bounds
import Proximity.Lanes.SquaredDistance
import Proximity.Metric.Table

/-!
# Elkan's rounds

Lloyd's rounds with bounds that save distances. For each sample `upper` bounds the distance to the
centre of its label from above and `lower` the distance to every centre from below. `half` holds half
the distance of each two centres and `nearestHalf` half the distance from each centre to the nearest
other one. A sample whose upper bound is not above `nearestHalf` of its label keeps the label.

1. `Bounds` and `halfDistances`.
2. `startSample`: the label and bounds of a sample before the first round.
3. `relabel`: the new label of a sample, and the bounds it leaves behind.
4. `Elkan.step`: a round.
-/

namespace Proximity

variable {α : Type} [Add α] [Sub α] [Mul α] [Div α] [Neg α] [LT α] [LE α] [DecidableLT α]
  [DecidableLE α] [BEq α] [Scalar α] {n K d pad : Nat}

/-- Bounds for `n` samples and `K` centres, in rows with some padding. -/
structure Bounds (α : Type) (n K pad : Nat) where
  upper : Vector α n
  lower : Vector (Vector α (K + pad)) n
  half : Matrix α K K
  nearestHalf : Vector (Extended α) K
  shift : Vector α (K + pad)

namespace Bounds

/-- The column of a cluster in a padded row. -/
def column (pad : Nat) (j : Fin K) : Fin (K + pad) := Fin.castAdd pad j

/-- Half the distances of the centres. -/
def halfDistances (centres : Matrix α K d) : Matrix α K K :=
  (euclideanDistances centres centres false).map fun row => row.map (· * Scalar.half)

/-- The least entry of column `j` but for the one on the diagonal. -/
def leastOther (half : Matrix α K K) (j : Fin K) : Extended α :=
  ((List.finRange K).filter (· ≠ j)).foldl (fun least i => Extended.meet least (half.entry i j)) none

/-- The half distances of new centres. -/
def measure (b : Bounds α n K pad) (centres : Matrix α K d) : Bounds α n K pad :=
  let half := halfDistances centres
  { b with half, nearestHalf := Vector.ofFn (leastOther half) }

/-- Room for the bounds. The table of half distances is taken for granted; a lack of room for the
other buffers is reported. -/
def reserve [Machine] (bytes n K pad : Nat) : Outcome Unit := do
  Outcome.ofChecked (Memory.reserve bytes n)
  Outcome.ofChecked (Memory.reserve bytes (Memory.wrap (n * (K + pad))))
  Memory.demand bytes (K * K)
  Outcome.ofChecked (Memory.reserve bytes K)
  Outcome.ofChecked (Memory.reserve bytes (K + pad))

/-- Blank bounds. -/
def blank (n K pad : Nat) : Bounds α n K pad where
  upper := Vector.replicate n Scalar.zero
  lower := Vector.replicate n (Vector.replicate (K + pad) Scalar.zero)
  half := Matrix.const K K Scalar.zero
  nearestHalf := Vector.replicate K none
  shift := Vector.replicate (K + pad) Scalar.zero

/-! ## Before the first round -/

/-- The nearest centre so far of a sample with its distance, and the lower bounds. -/
structure Start (α : Type) (K pad : Nat) where
  label : Fin K
  distance : α
  lower : Vector α (K + pad)

/-- Centre `j` tried. It is skipped when the half distance from the best one rules it out; its lower
bound is then zero. -/
def tryCentre (half : Matrix α K K) (dist : Fin K → α) (s : Start α K pad) (j : Fin K) :
    Start α K pad :=
  if half.entry s.label j < s.distance then
    let v := dist j
    let lower := s.lower.put (column pad j) v
    if v < s.distance then ⟨j, v, lower⟩ else { s with lower }
  else s

/-- Label and bounds of a sample, given its distances to the centres. -/
def startSample [Positive K] (half : Matrix α K K) (dist : Fin K → α) : Start α K pad :=
  let first : Fin K := Positive.first K
  let blank : Vector α (K + pad) := Vector.replicate (K + pad) Scalar.zero
  (List.finRange K).tail.foldl (tryCentre half dist)
    ⟨first, dist first, blank.put (column pad first) (dist first)⟩

/-! ## A sample in a round -/

/-- A sample while its candidates are tried: label, upper bound, whether the upper bound is the exact
distance, and the lower bounds. -/
structure Trial (α : Type) (K pad : Nat) where
  label : Fin K
  upper : α
  tight : Bool
  lower : Vector α (K + pad)

/-- The bounds do not rule out that centre `j` is nearer. -/
def Trial.maybeNearer (half : Matrix α K K) (t : Trial α K pad) (j : Fin K) : Bool :=
  !(t.upper ≤ t.lower.get (column pad j)) && !(t.upper ≤ half.entry t.label j)

/-- The upper bound replaced by the distance to the centre of the label. -/
def Trial.tighten (dist : Fin K → α) (t : Trial α K pad) : Trial α K pad :=
  if t.tight then t
  else
    let v := dist t.label
    { t with upper := v, tight := true, lower := t.lower.put (column pad t.label) v }

/-- The exact bounds do not rule out that centre `j` is nearer. -/
def Trial.stillNearer (half : Matrix α K K) (t : Trial α K pad) (j : Fin K) : Bool :=
  t.lower.get (column pad j) < t.upper && half.entry t.label j < t.upper

/-- The distance to centre `j` taken, and the label moved there if it is smaller. -/
def Trial.measure (dist : Fin K → α) (t : Trial α K pad) (j : Fin K) : Trial α K pad :=
  let v := dist j
  let lower := t.lower.put (column pad j) v
  if v < t.upper then { t with lower, upper := v, label := j } else { t with lower }

/-- Centre `j` tried. -/
def Trial.next (half : Matrix α K K) (dist : Fin K → α) (t : Trial α K pad) (j : Fin K) :
    Trial α K pad :=
  if j = t.label || !t.maybeNearer half j then t
  else
    let t := t.tighten dist
    if t.stillNearer half j then t.measure dist j else t

/-- A sample after a round's search, given its distances to the previous centres. -/
def relabel (half : Matrix α K K) (nearestHalf : Vector (Extended α) K) (dist : Fin K → α)
    (label : Fin K) (upper : α) (lower : Vector α (K + pad)) : Trial α K pad :=
  let t : Trial α K pad := ⟨label, upper, false, lower⟩
  if (nearestHalf.get label).lt (some upper) then (List.finRange K).foldl (Trial.next half dist) t
  else t

end Bounds

/-! ## Rounds -/

/-- Elkan's method: the widths of its kernels, and its bounds. -/
structure Elkan (α : Type) [Scalar α] (n K : Nat) where
  boundWidth : Lanes.Width
  distanceWidth : Lanes.Width
  bounds : Bounds α n K (boundWidth.padding (Scalar.bytes α))

namespace Elkan

/-- The method for given sizes, if there is room for its bounds. -/
def fresh [Machine] (n K d : Nat) (pinned : Option Lanes.Width) : Outcome (Elkan α n K) :=
  let boundWidth := Lanes.boundWidth (Scalar.bytes α) K pinned
  let distanceWidth := Lanes.distanceWidth (Scalar.bytes α) d pinned
  (Bounds.reserve (Scalar.bytes α) n K (boundWidth.padding (Scalar.bytes α))).map fun _ =>
    { boundWidth, distanceWidth, bounds := Bounds.blank n K _ }

/-- The distance from sample `i` to a centre. -/
def distance (e : Elkan α n K) (data : Samples α n d) (centres : Matrix α K d) (i : Fin n)
    (j : Fin K) : α :=
  Scalar.sqrt <| Lanes.squaredDistance (e.distanceWidth.lanes (Scalar.bytes α))
    (data.sample i) (Strided.ofVector (centres.get j))

/-- All samples labelled by the initial centres, with their bounds. -/
def start [Clustered n K] (e : Elkan α n K) (data : Samples α n d) (s : RunState α n K d) :
    Elkan α n K × RunState α n K d :=
  let b := e.bounds.measure s.centres.current
  let starts := Vector.ofFn fun i =>
    have : Positive K := Clustered.positive i
    Bounds.startSample b.half (e.distance data s.centres.current i)
  ({ e with bounds :=
      { b with upper := starts.map (·.distance), lower := starts.map (·.lower) } },
    { s with labels.current := starts.map (·.label) })

/-- The bounds after the centres have moved to those of the state, which also holds their shift. -/
def move (e : Elkan α n K) (s : RunState α n K d) : Elkan α n K :=
  let b := e.bounds
  let shift := Vector.ofFn fun j =>
    if h : j.val < K then Scalar.sqrt (s.centres.previous.get ⟨j.val, h⟩).squaredNorm
    else b.shift.get j
  let L := e.boundWidth.lanes (Scalar.bytes α)
  { e with bounds := Bounds.measure { b with
      shift
      upper := Vector.ofFn fun i =>
        Lanes.upperAfter (b.upper.get i) shift (Bounds.column _ (s.labels.current.get i))
      lower := b.lower.map fun row => Lanes.lowerAfter L K row shift } s.centres.current }

/-- A round; with `update` off only the labels and the bounds change. -/
def step (e : Elkan α n K) (data : Samples α n d) (update : Bool) (s : RunState α n K d) :
    Elkan α n K × RunState α n K d :=
  let b := e.bounds
  let trials := Vector.ofFn fun i =>
    Bounds.relabel b.half b.nearestHalf (e.distance data s.centres.previous i)
      (s.labels.previous.get i) (b.upper.get i) (b.lower.get i)
  let e := { e with bounds :=
    { b with upper := trials.map (·.upper), lower := trials.map (·.lower) } }
  let s := { s with labels.current := trials.map (·.label) }
  if update then
    let s := s.recentre (Totals.ofLabels data.point s.labels.current)
    (e.move s, s)
  else (e, s)

end Elkan

end Proximity
