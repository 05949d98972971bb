import Proximity.Clustering.Samples
import Proximity.Clustering.Settings
import Proximity.Clustering.State
import Proximity.Metric.Table
import Proximity.Random.Sampler

/-!
# Seeding

The first centres of a run: different samples, means of a random labelling, samples far from each
other, or centres given by the caller. All random choices come from a `Sampler`.

1. `sampledCentres` and `partitionCentres`.
2. `PlusPlus`: greedy seeding. Every new centre is the best of a few candidates, drawn with weights
   that are the squared distances to the nearest centre so far.
3. `Seeding.start`: the seeding named by the settings.
-/

namespace Proximity

variable {α σ : Type} [Add α] [Sub α] [Mul α] [Div α] [Neg α] [LT α] [LE α] [DecidableLT α]
  [DecidableLE α] [BEq α] [Scalar α] {n K d : Nat}

/-! ## Samples and partitions -/

/-- Row `l` is sample `chosen l`, for as many rows as were chosen; other rows stay. -/
def copySamples (data : Samples α n d) (chosen : List (Fin n)) (centres : Matrix α K d) :
    Matrix α K d :=
  Vector.ofFn fun l => match chosen[l.val]? with
    | some i => data.point i
    | none => centres.get l

/-- Centres at different samples. -/
def sampledCentres (S : Sampler σ α) (data : Samples α n d) (s : RunState α n K d) (g : σ) :
    RunState α n K d × σ :=
  let (chosen, g) := S.distinct n K g
  ({ s with centres.current := copySamples data chosen s.centres.current }, g)

/-- A random label for each sample. -/
def randomLabels [Clustered n K] (S : Sampler σ α) (labels : Vector (Fin K) n) (g : σ) :
    Vector (Fin K) n × σ :=
  Fin.foldl n (fun (labels, g) i =>
    have : Positive K := Clustered.positive i
    let (l, g) := S.below K g
    (labels.put i l, g)) (labels, g)

/-- Centres at the means of a random labelling; the centre of an empty cluster is the origin. -/
def partitionCentres [Clustered n K] (S : Sampler σ α) (data : Samples α n d) (s : RunState α n K d)
    (g : σ) : RunState α n K d × σ :=
  let (labels, g) := randomLabels S s.labels.current g
  let t := Totals.ofLabels data.point labels
  (State.scaleCentres
    { s with
      labels := { s.labels with current := labels }
      counts := t.counts
      centres := { s.centres with current := t.sums } }, g)

/-! ## Greedy seeding -/

namespace PlusPlus

/-- Candidates drawn for each centre: two, and one more for each time the number of clusters can be
divided by Euler's number. -/
def trials (K : Nat) : Nat := 2 + (Float.log (Float.ofNat K)).toUInt64.toNat

/-- Squared distances from all samples to sample `i`. -/
def distancesTo (M : Matrix α n d) (norms : Vector α n) (i : Fin n) : Vector α n :=
  Vector.ofFn fun j => clampedDistance true (crossTerm (M.get j) (M.get i) + norms.get j + norms.get i)

/-- Distances to the nearest centre once one more centre has the distances `new`. -/
def merged (closest new : Vector α n) : Vector α n :=
  Vector.zipWith (fun old new => if new < old then new else old) closest new

/-- The potential of a seeding: the sum of the distances to the nearest centre. -/
def potential (closest : Vector α n) : α := sumOver n fun i => closest.get i

/-- A candidate with its potential and the distances that come with it. -/
structure Candidate (α : Type) (n : Nat) where
  index : Fin n
  cost : α
  closest : Vector α n

/-- The first candidate of least potential, where the list is read up to the first repetition. -/
def bestOf (M : Matrix α n d) (norms closest : Vector α n) :
    (candidates seen : List (Fin n)) → Option (Candidate α n) → Option (Candidate α n)
  | [], _, best => best
  | i :: rest, seen, best =>
    if i ∈ seen then best
    else
      let new := merged closest (distancesTo M norms i)
      let cost := potential new
      let better := match best with
        | none => true
        | some b => cost < b.cost
      bestOf M norms closest rest (i :: seen) (if better then some ⟨i, cost, new⟩ else best)

/-- The weight of each sample: its distance to the nearest centre, if that is a number above zero. -/
def weights (closest : Vector α n) : Vector α n := closest.map (Scalar.max · Scalar.zero)

/-- Candidates for one centre: draws by weight, or one uniform draw when no weight is positive. -/
def candidates [Positive n] (S : Sampler σ α) (K : Nat) (closest : Vector α n) (g : σ) :
    Outcome (List (Fin n) × σ) :=
  match S.weighted (weights closest) with
  | .error b => .error (.breach b)
  | .ok (some draw) => .ok (Sampler.repeated draw (trials K) g)
  | .ok none =>
    let (i, g) := S.below n g
    .ok ([i], g)

/-- Centre `l` chosen, given the distances to the centres before it. -/
def choose [Positive n] (S : Sampler σ α) (data : Samples α n d) (M : Matrix α n d)
    (norms : Vector α n) (acc : Matrix α K d × Vector α n × σ) (l : Fin K) :
    Outcome (Matrix α K d × Vector α n × σ) := do
  let (centres, closest, g) := acc
  let (drawn, g) ← candidates S K closest g
  match bestOf M norms closest drawn [] none with
  | some b =>
    return (centres.put l (data.point b.index), b.closest.put b.index Scalar.zero, g)
  | none => return (centres, closest, g)

/-- All centres chosen, one after another. Where all samples coincide they are the first samples. -/
def seed [Positive n] [Positive K] (S : Sampler σ α) (data : Samples α n d)
    (centres : Matrix α K d) (g : σ) : Outcome (Matrix α K d × σ) := do
  let M := data.rows
  let norms := M.squaredNorms
  let (first, g) := S.below n g
  let centres := centres.put (Positive.first K) (data.point first)
  let closest := (distancesTo M norms first).put first Scalar.zero
  if closest.all (· ≤ Scalar.zero) then
    return (copySamples data (List.finRange n) centres, g)
  else
    let (centres, _, g) ← (List.finRange K).tail.foldlM (choose S data M norms) (centres, closest, g)
    return (centres, g)

end PlusPlus

/-! ## The seeding of the settings -/

/-- The state with the first centres of a run. The previous centres are cleared. Of supplied centres a
single row or column stands for all. -/
def Seeding.start [Clustered n K] (how : Seeding) (S : Sampler σ α) (data : Samples α n d)
    (supplied : Option (Grid α)) (s : RunState α n K d) (g : σ) :
    Outcome (RunState α n K d × σ) :=
  let s := { s with centres.previous := Matrix.const K d Scalar.zero }
  match how with
  | .randomSamples => if K ≤ n then .ok (sampledCentres S data s g) else .error (.breach .range)
  | .randomPartitions => .ok (partitionCentres S data s g)
  | .plusPlus =>
    if h : Positive n then
      have : Positive K := ⟨Clustered.pos h.pos⟩
      (PlusPlus.seed S data s.centres.current g).map fun (centres, g) =>
        ({ s with centres.current := centres }, g)
    else .error (.breach .range)
  | .supplied =>
    match supplied with
    | none => .error (.error (.missing .initialCentres))
    | some given =>
      match given.spread? K d with
      | some centres => .ok ({ s with centres.current := centres }, g)
      | none => .error (.breach .shapes)

end Proximity
