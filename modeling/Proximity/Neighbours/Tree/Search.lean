import Proximity.Metric.Table
import Proximity.Neighbours.Exhaustive
import Proximity.Neighbours.Heap
import Proximity.Neighbours.Tree.Basic

/-!
# Searching a k-d tree

Both searches walk down from the root and leave out what the boxes and splits rule out.

1. `Search.plan`: the settings of a search, checked against the tree and the queries.
2. `Search.overlap`: where a box lies relative to a ball around the query.
3. `within`: the rows within a radius, in the order found.
4. `nearestInto`: the nearest rows, collected in a bounded heap.

A walk goes from a node to nodes with larger positions, so the number of nodes bounds its length. A
link that leads outside the array is a breach.
-/

namespace Proximity

variable {α : Type} [Add α] [Sub α] [Mul α] [Div α] [Neg α] [LT α] [LE α] [DecidableLT α]
  [DecidableLE α] [BEq α] [Scalar α] {n d : Nat}

/-- Settings of one search: the metric it evaluates, its order and the inverse of that, and the
squared norms of the rows when it runs on squared distances. -/
structure Search (α : Type) (n : Nat) where
  metric : Metric
  p : α
  inverse : α
  norms : Option (Vector α n)

/-- One query: a point, its squared norm, and the row it is when a tree is asked about itself. -/
structure Probe (α : Type) (n d : Nat) where
  point : Point α d
  norm : α
  self : Option (Fin n)

/-- The row is not the query itself. -/
def Probe.admits (q : Probe α n d) (i : Fin n) : Bool := q.self ≠ some i

/-- Where a box lies relative to a ball. -/
inductive Overlap where
  | outside
  | crossing
  | inside
  deriving Repr, DecidableEq

/-! ## Plans -/

namespace Search

/-- A tree answers for metrics whose value does not fall when a coordinate difference grows. -/
def checkMetric (m : Metric) (p : α) : Checked Unit := do
  m.validate p
  if m = .cosine then .error (.invalid .treeCosine)
  else if m = .minkowski ∧ p < Scalar.one then
    .error (.invalid (.treeOrder (Scalar.decimal p)))
  else .ok ()

/-- Queries are a matrix with at least one row and with the features of the tree. -/
def checkQuery (d : Nat) : Option (Grid α) → Checked Unit
  | none => .ok ()
  | some q =>
    if q.rows = 0 ∨ q.cols ≠ d then .error (.invalid (.treeQuery d q.rows q.cols)) else .ok ()

/-- The settings of a search in a tree over `M`. -/
def settings (M : Matrix α n d) (m : Metric) (p : α) : Search α n :=
  let metric := m.evaluated p
  let p := if metric = .manhattan then Scalar.one else p
  { metric, p
    inverse := if metric = .manhattan then Scalar.one else Scalar.recip p
    norms := if metric = .sqEuclidean then some M.squaredNorms else none }

/-- The settings of a search, once metric and queries have been checked. -/
def plan (M : Matrix α n d) (query : Option (Grid α)) (m : Metric) (p : α) :
    Checked (Search α n) := do
  checkMetric m p
  checkQuery d query
  return settings M m p

/-! ## Distances and boxes -/

/-- The distance from a query to a row, in the units of the search. -/
def distanceTo (s : Search α n) (M : Matrix α n d) (q : Probe α n d) (i : Fin n) : α :=
  match s.norms with
  | some norms =>
    Scalar.max (q.norm + norms.get i - Scalar.two * (M.get i).dot q.point) Scalar.zero
  | none => s.metric.distance s.p q.point (M.get i)

/-- The least and greatest difference between a coordinate and an interval. -/
def reach (x lo hi : α) : α × α :=
  if x < lo then (lo - x, hi - x)
  else if hi < x then (x - hi, x - lo)
  else (Scalar.zero, Scalar.max (hi - x) (x - lo))

/-- A coordinate difference in the units of the search. -/
def reachUnits (s : Search α n) (v : α) : α := if s.metric = .sqEuclidean then v * v else v

/-- What a coordinate difference adds to the distance of a box. -/
def contribution (s : Search α n) (v : α) : α :=
  if s.metric = .sqEuclidean ∨ s.metric = .manhattan then v else Scalar.pow v s.p

/-- The distance of a box from the sum of the contributions. -/
def total (s : Search α n) (v : α) : α :=
  if s.metric = .sqEuclidean ∨ s.metric = .manhattan then v else Scalar.pow v s.inverse

/-- The contributions of dimension `j` added to the least and greatest distance so far; nothing when
this dimension alone puts the box outside. -/
def overlapStep (s : Search α n) (x : Point α d) (eps : α) (box : Box α d) (acc : α × α)
    (j : Fin d) : Option (α × α) :=
  let r := reach (x.get j) (box.low.get j) (box.high.get j)
  let near := s.reachUnits r.1
  let far := s.reachUnits r.2
  if eps < near then none else some (acc.1 + s.contribution near, acc.2 + s.contribution far)

/-- The position of a box relative to the ball of radius `eps` around a point. -/
def overlap (s : Search α n) (x : Point α d) (eps : α) (box : Box α d) : Overlap :=
  match (List.finRange d).foldlM (s.overlapStep x eps box) (Scalar.zero, Scalar.zero) with
  | none => .outside
  | some (near, far) =>
    if s.total far ≤ eps then .inside else if s.total near ≤ eps then .crossing else .outside

end Search

namespace KdTree

/-! ## Rows within a radius -/

/-- The rows within `eps` of the query in the subtree at position `id`. Coordinate differences are
compared with `planeEps`, which is a distance also where `eps` is a square. -/
def within (T : KdTree α n d) (s : Search α n) (q : Probe α n d) (eps planeEps : α) :
    (fuel id : Nat) → Outcome (List (Fin n))
  | 0, _ => .error (.breach .range)
  | fuel + 1, id =>
    match T.nodes[id]? with
    | none => .error (.breach .range)
    | some v =>
      match s.overlap q.point eps v.box with
      | .outside => .ok []
      | .inside => .ok ((T.rowsOf v).filter q.admits)
      | .crossing =>
        match v.split with
        | .leaf =>
          .ok ((T.rowsOf v).filter fun i =>
            q.admits i && s.distanceTo T.data q i ≤ eps)
        | .inner point left right => do
          let here := if q.admits point && s.distanceTo T.data q point ≤ eps then [point] else []
          let diff := q.point.get v.dim - T.data.entry point v.dim
          let below ← if diff ≤ planeEps then within T s q eps planeEps fuel left else .ok []
          let above ← if -planeEps ≤ diff then within T s q eps planeEps fuel right else .ok []
          return here ++ below ++ above

/-! ## Nearest rows -/

/-- The heap after a row was offered to it. -/
def offer (T : KdTree α n d) (s : Search α n) (q : Probe α n d) (heap : BoundedHeap (Fin n) α)
    (i : Fin n) : BoundedHeap (Fin n) α :=
  if q.admits i then heap.insert i (s.distanceTo T.data q i) else heap

/-- The heap after the subtree at position `id` was searched. A subtree is left out when the heap is
full and the box of the subtree is farther than its farthest entry; of the two halves of a node the
one with the query comes first, and the other one only if the split is near enough. -/
def nearestInto (T : KdTree α n d) (s : Search α n) (q : Probe α n d) :
    (fuel id : Nat) → BoundedHeap (Fin n) α → Outcome (BoundedHeap (Fin n) α)
  | 0, _, _ => .error (.breach .range)
  | fuel + 1, id, heap =>
    match T.nodes[id]? with
    | none => .error (.breach .range)
    | some v =>
      if heap.isFull &&
          s.overlap q.point (heap.worst.getD Scalar.largest) v.box = .outside then .ok heap
      else
        match v.split with
        | .leaf => .ok ((T.rowsOf v).foldl (T.offer s q) heap)
        | .inner point left right => do
          let heap := T.offer s q heap point
          let diff := q.point.get v.dim - T.data.entry point v.dim
          let plane := if s.metric = .sqEuclidean then diff * Scalar.abs diff else diff
          if diff < Scalar.zero then
            let heap ← nearestInto T s q fuel left heap
            if -(heap.worst.getD Scalar.largest) ≤ plane then nearestInto T s q fuel right heap
            else return heap
          else
            let heap ← nearestInto T s q fuel right heap
            if plane ≤ heap.worst.getD Scalar.largest then nearestInto T s q fuel left heap
            else return heap

/-! ## The searches -/

/-- Row `i` of the tree as a query about the others. -/
def selfProbe (T : KdTree α n d) (s : Search α n) (i : Fin n) : Probe α n d where
  point := T.data.get i
  norm := match s.norms with
    | some norms => norms.get i
    | none => Scalar.zero
  self := some i

/-- A point as a query. -/
def pointProbe (s : Search α n) (x : Point α d) : Probe α n d where
  point := x
  norm := if s.norms.isSome then x.squaredNorm else Scalar.zero
  self := none

/-- Number of queries: the given points, or all `n` rows. -/
def queryCount (n : Nat) : Option (Grid α) → Nat
  | none => n
  | some g => g.rows

/-- The queries: given points, or all rows of the tree. -/
def probes (T : KdTree α n d) (s : Search α n) :
    (query : Option (Grid α)) → Outcome (Vector (Probe α n d) (queryCount n query))
  | none => .ok (Vector.ofFn (T.selfProbe s))
  | some g =>
    match g.withCols? d with
    | some M => .ok (M.map (pointProbe s))
    | none => .error (.breach .shapes)

/-- The rows within a radius of each query, in the order found. -/
def radiusNeighbours (T : KdTree α n d) (query : Option (Grid α)) (eps : α) (m : Metric) (p : α) :
    Outcome (Vector (List (Fin n)) (queryCount n query)) := do
  let s ← Outcome.ofChecked (Search.plan T.data query m p)
  let eps ← Outcome.ofChecked (m.internalRadius p eps)
  let planeEps := if s.metric = .sqEuclidean then Scalar.sqrt eps else eps
  (← T.probes s query).mapM fun q => T.within s q eps planeEps T.nodes.size 0

/-- The `k` nearest rows for each query, by ascending distance. -/
def nearestNeighbours (T : KdTree α n d) (query : Option (Grid α)) (k : Nat) (m : Metric) (p : α) :
    Outcome (NeighbourTable α (queryCount n query) k) := do
  let s ← Outcome.ofChecked (Search.plan T.data query m p)
  Outcome.ofChecked (checkCount (if query.isNone then n - 1 else n) k)
  let found ← (← T.probes s query).mapM fun q => do
    let heap ← T.nearestInto s q T.nodes.size 0 (.empty k)
    return heap.sorted.map fun e => (e.1.val, m.externalDistance p e.2)
  return .ofLists k found

end KdTree

/-- The other rows within a radius of each row, by a k-d tree built for the occasion. -/
def Grid.treeRadiusNeighbours [Machine] (g : Grid α) (eps : α) (m : Metric) (p : α) (leafSize : Nat) :
    Outcome (Vector (List (Fin g.rows)) g.rows) := do
  let T ← Outcome.ofChecked (KdTree.ofGrid g leafSize)
  T.radiusNeighbours none eps m p

end Proximity
