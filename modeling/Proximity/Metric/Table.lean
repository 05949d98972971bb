import Proximity.Matrix
import Proximity.Memory
import Proximity.Metric

/-!
# Tables of distances

All distances between the rows of two matrices. Squared Euclidean distances are expanded into norms
and inner products, `|x|² + |y|² - 2 x·y`; other metrics are evaluated pair by pair.

1. `writeCross`: the inner products, written into the front of the rows of a work matrix.
2. `squaredTable` and `euclideanTable`: the expansion, and its values clamped at zero.
3. `Metric.pairwise`: the table of any metric.
-/

namespace Proximity

variable {α : Type} [Add α] [Sub α] [Mul α] [Div α] [Neg α] [LT α] [LE α] [DecidableLT α]
  [DecidableLE α] [BEq α] [Scalar α] {r k d : Nat}

/-- The product of two points times minus two. -/
def crossTerm (x y : Point α d) : α := -Scalar.two * x.dot y

/-- A work row whose leading entries are the cross terms of `x` with the rows of `y`. -/
def crossRow {ld : Nat} (x : Point α d) (y : Matrix α k d) (row : Vector α ld) : Vector α ld :=
  Vector.ofFn fun j => if h : j.val < k then crossTerm x (y.get ⟨j.val, h⟩) else row.get j

/-- A work matrix whose leading rows and columns are the cross terms of the rows of `x` and `y`. -/
def writeCross {n ld : Nat} (x : Matrix α r d) (y : Matrix α k d) (work : Matrix α n ld) :
    Matrix α n ld :=
  Vector.ofFn fun i => if h : i.val < r then crossRow (x.get ⟨i.val, h⟩) y (work.get i) else work.get i

/-- Squared distances from the norms of the rows, with no clamping. -/
def squaredTable (x : Matrix α r d) (y : Matrix α k d) (xNorms : Vector α r)
    (yNorms : Vector α k) : Matrix α r k :=
  Matrix.ofFn fun i j => crossTerm (x.get i) (y.get j) + xNorms.get i + yNorms.get j

/-- An entry of a Euclidean table: clamped at zero, and its root unless squares are wanted. -/
def clampedDistance (squared : Bool) (v : α) : α :=
  let v := Scalar.max v Scalar.zero
  if squared then v else Scalar.sqrt v

/-- Euclidean distances, or their squares, from the norms of the rows. -/
def euclideanTable (x : Matrix α r d) (y : Matrix α k d) (xNorms : Vector α r)
    (yNorms : Vector α k) (squared : Bool) : Matrix α r k :=
  (squaredTable x y xNorms yNorms).map fun row => row.map (clampedDistance squared)

/-- Euclidean distances between all rows of two matrices, or their squares. -/
def euclideanDistances (x : Matrix α r d) (y : Matrix α k d) (squared : Bool) : Matrix α r k :=
  euclideanTable x y x.squaredNorms y.squaredNorms squared

/-- The distances of a metric evaluated pair by pair. -/
def Metric.eachPair (m : Metric) (p : α) (x : Matrix α r d) (y : Matrix α k d) : Matrix α r k :=
  Matrix.ofFn fun i j => m.distance p (x.get i) (y.get j)

/-- The table of a metric, in the units of the caller. -/
def Metric.table (m : Metric) (p : α) (x : Matrix α r d) (y : Matrix α k d) : Matrix α r k :=
  if m.evaluated p = .sqEuclidean then euclideanDistances x y (m = .sqEuclidean)
  else (m.evaluated p).eachPair p x y

/-! ## Shapes known when called -/

/-- Room for a table of `r × k` distances, and for the norms of both sides. -/
def tableRoom [Machine] (bytes r k : Nat) : Outcome Unit := do
  Memory.demand bytes r
  Memory.demand bytes k
  Memory.demand bytes (r * k)

/-- The table of a metric between two grids. -/
def Metric.pairwise [Machine] (m : Metric) (p : α) (x y : Grid α) :
    Outcome (Matrix α x.rows y.rows) := do
  Outcome.ofChecked (m.validate p)
  if x.cols = y.cols then tableRoom (Scalar.bytes α) x.rows y.rows
  match y.withCols? x.cols with
  | none => .error (.error (.invalid (.featuresDiffer x.cols y.cols)))
  | some ys => return m.table p x.entries ys

omit [Sub α] [Div α] [Neg α] [LT α] [LE α] [DecidableLT α] [DecidableLE α] [BEq α] in
/-- The squared norms of the rows of a grid. -/
def Grid.squaredNorms [Machine] (g : Grid α) : Outcome (Vector α g.rows) := do
  Memory.demand (Scalar.bytes α) g.rows
  return g.entries.squaredNorms

/-- Norms given by the caller, or those of the rows. -/
def givenNorms (M : Matrix α r d) : Option (Array α) → Outcome (Vector α r)
  | none => .ok M.squaredNorms
  | some xs => if h : xs.size = r then .ok ⟨xs, h⟩ else .error (.breach .shapes)

/-- A table of the rows of two grids whose norms may be given. It is made row by row, so that without
rows in `x` the norms of `y` are not looked at. -/
def tableOf [Machine] (x y : Grid α) (xNorms yNorms : Option (Array α))
    (table : Matrix α y.rows x.cols → Vector α x.rows → Vector α y.rows → Matrix α x.rows y.rows) :
    Outcome (Matrix α x.rows y.rows) := do
  tableRoom (Scalar.bytes α) x.rows y.rows
  let some ys := y.withCols? x.cols | .error (.breach .shapes)
  let xn ← givenNorms x.entries xNorms
  let yn ← givenNorms ys (if x.rows = 0 then none else yNorms)
  return table ys xn yn

/-- Unclamped squared distances between the rows of two grids from given norms. -/
def squaredDistancesOf [Machine] (x y : Grid α) (xNorms yNorms : Array α) :
    Outcome (Matrix α x.rows y.rows) :=
  tableOf x y (some xNorms) (some yNorms) fun ys xn yn => squaredTable x.entries ys xn yn

/-- Euclidean distances between the rows of two grids, whose norms may be given. -/
def euclideanDistancesOf [Machine] (x y : Grid α) (xNorms yNorms : Option (Array α)) (squared : Bool) :
    Outcome (Matrix α x.rows y.rows) :=
  tableOf x y xNorms yNorms fun ys xn yn => euclideanTable x.entries ys xn yn squared

/-- The cross terms of two grids written into the front of a work grid. -/
def writeCrossOf (x y work : Grid α) : Outcome (Matrix α work.rows work.cols) := do
  if work.rows < x.rows ∨ work.cols < y.rows then .error (.breach .shapes)
  let some ys := y.withCols? x.cols | .error (.breach .shapes)
  return writeCross x.entries ys work.entries

end Proximity
