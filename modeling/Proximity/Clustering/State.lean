import Proximity.Index
import Proximity.Matrix
import Proximity.Memory

/-!
# The state of a run

Centres and labels are kept twice. A round starts by swapping the two, so that the previous ones are
those the round starts from and the current ones receive its result; afterwards the previous centres
hold the shift of the round.

1. `Clustered`: samples come with clusters.
2. `Totals`: sums and numbers of the members of each cluster.
3. `State`: current and previous centres and labels, the sizes of the clusters.
-/

namespace Proximity

/-! ## Samples and clusters -/

/-- Each of `n` samples can be in one of `K` clusters: where there is a sample there is a cluster. -/
class Clustered (n K : Nat) : Prop where
  pos : 0 < n → 0 < K

namespace Clustered

instance (n K : Nat) [h : Positive K] : Clustered n K := ⟨fun _ => h.pos⟩

theorem iff_or {n K : Nat} : Clustered n K ↔ n = 0 ∨ 0 < K :=
  ⟨fun h => (Nat.eq_zero_or_pos n).imp_right h.pos, fun h => ⟨fun hn => by omega⟩⟩

instance (n K : Nat) : Decidable (Clustered n K) := decidable_of_iff' _ Clustered.iff_or

variable {n K : Nat} [h : Clustered n K]

theorem positive (i : Fin n) : Positive K := ⟨h.pos (Nat.zero_lt_of_lt i.isLt)⟩

/-- The first cluster, for a sample to be in. -/
def first (K : Nat) [h : Clustered n K] (i : Fin n) : Fin K :=
  ⟨0, h.pos (Nat.zero_lt_of_lt i.isLt)⟩

end Clustered

/-! ## Totals -/

/-- The sum of the members of each cluster, and their number. -/
structure Totals (α : Type) (K d : Nat) where
  sums : Matrix α K d
  counts : Vector Nat K

namespace Totals

variable {α : Type} [Add α] [Scalar α] {K d : Nat}

omit [Add α] in
/-- No members. -/
def zero : Totals α K d := ⟨Matrix.const K d Scalar.zero, Vector.replicate K 0⟩

/-- One more member of cluster `l`. -/
def insert (t : Totals α K d) (l : Fin K) (x : Point α d) : Totals α K d where
  sums := t.sums.put l ((t.sums.get l).add x)
  counts := t.counts.put l (t.counts.get l + 1)

/-- The members of both. -/
def merge (t u : Totals α K d) : Totals α K d where
  sums := Vector.zipWith Point.add t.sums u.sums
  counts := Vector.zipWith (· + ·) t.counts u.counts

/-- The totals of a labelling. -/
def ofLabels {n : Nat} (point : Fin n → Point α d) (labels : Vector (Fin K) n) : Totals α K d :=
  Fin.foldl n (fun t i => t.insert (labels.get i) (point i)) zero

end Totals

/-! ## Current and previous -/

/-- A value and the one it replaced. -/
structure Pair (β : Type) where
  current : β
  previous : β

/-- The two values exchanged. -/
def Pair.swap {β : Type} (p : Pair β) : Pair β := ⟨p.previous, p.current⟩

/-- The state of a run with `K` centres and labellings in `ι`. -/
structure State (α : Type) (K d : Nat) (ι : Type) where
  centres : Pair (Matrix α K d)
  labels : Pair ι
  counts : Vector Nat K
  /-- Norm of the centres that the last shift started from. -/
  previousNorm : α

/-- The state of a run that labels `n` samples. -/
abbrev RunState (α : Type) (n K d : Nat) := State α K d (Vector (Fin K) n)

namespace State

variable {α : Type} [Add α] [Sub α] [Mul α] [Div α] [Scalar α] {K d : Nat} {ι : Type}

/-- Current and previous centres exchanged. -/
def swapCentres (s : State α K d ι) : State α K d ι := { s with centres := s.centres.swap }

/-- Current and previous centres and labels exchanged. -/
def swap (s : State α K d ι) : State α K d ι :=
  { s with centres := s.centres.swap, labels := s.labels.swap }

/-- Sums turned into means. An empty cluster is divided by one, and from then on counts as one. -/
def scaleCentres (s : State α K d ι) : State α K d ι :=
  let counts := s.counts.map fun c => if c = 0 then 1 else c
  { s with
    counts
    centres :=
      { s.centres with
        current := Vector.zipWith (fun x c => x.divideBy (Scalar.ofNat c)) s.centres.current counts } }

/-- The previous centres replaced by their difference from the current ones. -/
def computeShift (s : State α K d ι) : State α K d ι :=
  { s with
    previousNorm := s.centres.previous.frobeniusNorm
    centres :=
      { s.centres with
        previous := Vector.zipWith Point.sub s.centres.previous s.centres.current } }

/-- The norm of the shift. -/
def shiftNorm (s : State α K d ι) : α := s.centres.previous.frobeniusNorm

/-- No label changed in the round. -/
def labelsUnchanged [BEq ι] (s : State α K d ι) : Bool := s.labels.current == s.labels.previous

/-- The centres moved to the means of a labelling. -/
def recentre (s : State α K d ι) (t : Totals α K d) : State α K d ι :=
  computeShift (scaleCentres
    { s with centres := { s.centres with current := t.sums }, counts := t.counts })

/-- Room for the buffers of a run, and a shape for its centres. The centres come first, labels and
counts after them. -/
def reserve [Machine] (bytes n K d : Nat) : Checked Unit := do
  Memory.reserve bytes (Memory.wrap (K * d))
  Memory.checkShape K d
  Memory.reserve Memory.indexBytes n
  Memory.reserve Memory.indexBytes K

/-- All centres at the origin, no members, and the same label everywhere. -/
def zero (label : ι) : State α K d ι where
  centres := ⟨Matrix.const K d Scalar.zero, Matrix.const K d Scalar.zero⟩
  labels := ⟨label, label⟩
  counts := Vector.replicate K 0
  previousNorm := Scalar.zero

end State

/-- The state of a run in which nothing has happened. -/
def RunState.blank {α : Type} [Scalar α] (n K d : Nat) [Clustered n K] : RunState α n K d :=
  State.zero (Vector.ofFn (Clustered.first K))

/-- The state that a run starts from, if there is room for it. -/
def RunState.fresh {α : Type} [Machine] [Scalar α] (n K d : Nat) [Clustered n K] :
    Checked (RunState α n K d) := do
  State.reserve (Scalar.bytes α) n K d
  return RunState.blank n K d

end Proximity
