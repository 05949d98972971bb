import Proximity.Error
import Proximity.Point

/-!
# Metrics

The distances that a search can be asked for. Searches for Euclidean distances, and for Minkowski
distances of order two, run on squared distances (`Metric.evaluated`); `internalRadius` and
`externalDistance` convert between the units of the caller and those of the search.
-/

namespace Proximity

/-- Distances between points. -/
inductive Metric where
  | euclidean
  /-- The squared Euclidean distance. -/
  | sqEuclidean
  | manhattan
  /-- The Minkowski distance of an order that is given apart. -/
  | minkowski
  /-- One minus the cosine of the angle. -/
  | cosine
  deriving Repr, DecidableEq

namespace Metric

variable {α : Type} [Add α] [Sub α] [Mul α] [Div α] [LT α] [LE α] [DecidableLT α] [DecidableLE α]
  [BEq α] [Scalar α] {d : Nat}

/-- The order of a Minkowski distance is positive; other metrics do not read it. -/
def validate (m : Metric) (p : α) : Checked Unit :=
  if m = minkowski ∧ ¬ Scalar.zero < p then .error (.invalid (.order (Scalar.decimal p)))
  else .ok ()

/-- The metric that a search evaluates. -/
def evaluated (m : Metric) (p : α) : Metric :=
  match m with
  | euclidean => sqEuclidean
  | minkowski => if p == Scalar.two then sqEuclidean else minkowski
  | m => m

/-- Distances come from squared ones by a square root. -/
def viaSquares (m : Metric) (p : α) : Bool :=
  m ≠ sqEuclidean && m.evaluated p = sqEuclidean

/-! ## The distance of two points -/

/-- The sum of squared coordinate differences. -/
def squared (x y : Point α d) : α := sumOver d fun j => (x.get j - y.get j) * (x.get j - y.get j)

/-- The sum of absolute coordinate differences. -/
def absolute (x y : Point α d) : α := sumOver d fun j => Scalar.abs (x.get j - y.get j)

/-- The sum of powers of absolute coordinate differences. -/
def powers (p : α) (x y : Point α d) : α :=
  sumOver d fun j => Scalar.pow (Scalar.abs (x.get j - y.get j)) p

/-- The norm of a point, or one at the origin. -/
def normOrOne (x : Point α d) : α :=
  let n := Scalar.sqrt (x.dot x)
  if n == Scalar.zero then Scalar.one else n

/-- The distance of two points. -/
def distance (m : Metric) (p : α) (x y : Point α d) : α :=
  match m with
  | sqEuclidean => squared x y
  | euclidean => Scalar.sqrt (squared x y)
  | manhattan => absolute x y
  | minkowski => Scalar.pow (powers p x y) (Scalar.recip p)
  | cosine =>
    Scalar.max (Scalar.one - x.dot y / (normOrOne x * normOrOne y)) Scalar.zero

/-- The distance of two lists of coordinates, which must be equally long. -/
def distanceOf (m : Metric) (p : α) (x y : Array α) : Outcome α :=
  if h : y.size = x.size then .ok (m.distance p x.toVector ⟨y, h⟩)
  else .error (.breach .shapes)

/-! ## Units of a search -/

/-- A radius in the units of the search. -/
def internalRadius (m : Metric) (p eps : α) : Checked α :=
  if ¬ Scalar.zero ≤ eps then .error (.invalid (.radius (Scalar.decimal eps)))
  else .ok (if m.viaSquares p then eps * eps else eps)

/-- A distance found by the search in the units of the caller. -/
def externalDistance (m : Metric) (p dist : α) : α :=
  if m.viaSquares p then Scalar.sqrt dist else dist

end Metric

end Proximity
