import Proximity.Index
import Proximity.Metric.Table
import Proximity.RowBlocks
import Proximity.StableSort

/-!
# Exhaustive neighbour searches

Neighbours found by looking at all pairs. The radius search evaluates each pair once, in square
tiles of rows on and above the diagonal, and records it in both directions. The search for the `k`
nearest sorts all candidates of a query.

1. `closePairs`: the pairs found in a sequence of tiles, whatever test says that two rows are near.
2. `neighbourLists`: the pairs recorded in both directions.
3. `Grid.radiusNeighbours` and `Grid.nearestNeighbours`: the two searches.
-/

namespace Proximity

/-! ## Close pairs -/

namespace RowBlocks

/-- The tiles on and above the diagonal, column after column of tiles. -/
def upperTiles (B : RowBlocks) : List (Nat × Nat) :=
  (List.range B.count).flatMap fun j => (List.range (j + 1)).map fun i => (i, j)

/-- The near pairs of one tile, column by column. A tile on the diagonal is read above its own
diagonal. -/
def pairsOfTile (B : RowBlocks) (near : Fin B.rows → Fin B.rows → Bool) (tile : Nat × Nat) :
    List (Fin B.rows × Fin B.rows) :=
  (List.finRange (B.length tile.2)).flatMap fun j =>
    ((List.finRange (B.length tile.1)).filter fun i =>
      (tile.1 ≠ tile.2 || i.val < j.val) && near (B.rowOf tile.1 i) (B.rowOf tile.2 j)).map
        fun i => (B.rowOf tile.1 i, B.rowOf tile.2 j)

/-- The near pairs of a sequence of tasks, each of which reads some tiles. -/
def closePairs (B : RowBlocks) (near : Fin B.rows → Fin B.rows → Bool)
    (tasks : List (List (Nat × Nat))) : List (Fin B.rows × Fin B.rows) :=
  tasks.flatMap fun tiles => tiles.flatMap (B.pairsOfTile near)

end RowBlocks

/-- Each pair recorded with both of its rows, in the order of the pairs. -/
def neighbourLists {n : Nat} (pairs : List (Fin n × Fin n)) : Vector (List (Fin n)) n :=
  let record (lists : Vector (List (Fin n)) n) (i j : Fin n) := lists.put i (j :: lists.get i)
  (pairs.foldl (fun lists p => record (record lists p.1 p.2) p.2 p.1)
    (Vector.replicate n [])).map List.reverse

variable {α : Type} [Add α] [Sub α] [Mul α] [Div α] [Neg α] [LT α] [LE α] [DecidableLT α]
  [DecidableLE α] [BEq α] [Scalar α] {n d : Nat}

/-! ## Neighbours within a radius -/

/-- Rows of a tile of the radius search. -/
def radiusTile : Nat := 512

/-- The distance that the radius search computes for two rows, in the units of the search. -/
def searchDistance (m : Metric) (p : α) (M : Matrix α n d) (norms : Vector α n)
    (i j : Fin n) : α :=
  if m.evaluated p = .sqEuclidean then
    clampedDistance true (crossTerm (M.get i) (M.get j) + norms.get i + norms.get j)
  else (m.evaluated p).distance p (M.get i) (M.get j)

/-- The other rows within a radius of each row. -/
def Grid.radiusNeighbours (g : Grid α) (eps : α) (m : Metric) (p : α) :
    Checked (Vector (List (Fin g.rows)) g.rows) := do
  m.validate p
  if g.rows = 0 ∨ g.cols = 0 then .error (.invalid (.emptyTable g.rows g.cols))
  let eps ← m.internalRadius p eps
  let norms := g.entries.squaredNorms
  let B := RowBlocks.ofRows g.rows radiusTile
  return neighbourLists <| B.closePairs
    (fun i j => searchDistance m p g.entries norms i j ≤ eps) [B.upperTiles]

/-! ## Nearest neighbours -/

/-- For each of `q` queries, the indices of `k` neighbours and their distances. -/
structure NeighbourTable (α : Type) (q k : Nat) where
  indices : Matrix Nat q k
  distances : Matrix α q k

/-- The table of the neighbours found for each query; slots that nothing was found for hold zeros. -/
def NeighbourTable.ofLists {q : Nat} (k : Nat) (found : Vector (List (Nat × α)) q) :
    NeighbourTable α q k where
  indices := found.map fun l => Vector.ofFn fun s : Fin k => (l[s.val]?.map (·.1)).getD 0
  distances := found.map fun l =>
    Vector.ofFn fun s : Fin k => (l[s.val]?.map (·.2)).getD Scalar.zero

/-- Between one and all candidates are asked for. -/
def checkCount (candidates k : Nat) : Checked Unit :=
  if k = 0 ∨ candidates < k then .error (.invalid (.neighbourCount candidates k)) else .ok ()

/-- The `k` candidates with the smallest values, equal ones by index. -/
def nearestColumns (k : Nat) (row : Vector α n) (excluded : Option Nat) : List (Fin n) :=
  (StableSort.sort (fun a b => row.get a < row.get b)
    ((List.finRange n).filter fun j => excluded ≠ some j.val)).take k

/-- The distances of a search from the rows of `q` to those of `g`. No check of the number of
features is made where the search runs on squared distances. -/
def searchTable [Machine] (m : Metric) (p : α) (q g : Grid α) : Outcome (Matrix α q.rows g.rows) :=
  if m.evaluated p = .sqEuclidean then euclideanDistancesOf q g none none true
  else m.pairwise p q g

/-- The `k` nearest rows for each query, by ascending distance. Without queries the rows themselves
are queried, and no row is its own neighbour. -/
def Grid.nearestNeighbours [Machine] (g : Grid α) (query : Option (Grid α)) (k : Nat) (m : Metric)
    (p : α) : Outcome (NeighbourTable α (query.getD g).rows k) := do
  let candidates := if query.isNone then g.rows - 1 else g.rows
  Outcome.ofChecked (checkCount candidates k)
  let table ← searchTable m p (query.getD g) g
  return .ofLists k <| Vector.ofFn fun i =>
    (nearestColumns k (table.get i) (if query.isNone then some i.val else none)).map fun j =>
      (j.val, m.externalDistance p (table.entry i j))

end Proximity
