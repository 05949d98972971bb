import Proximity.Matrix
import Proximity.Memory
import Proximity.StableSort

/-!
# k-d trees

A tree over the rows of a matrix. The nodes stand in one array, the root first; every node owns a
contiguous range of a permutation of the rows and a box around the rows in it. An inner node splits
its range at a row, its point; the rows before the point are not above it in the node's dimension
and the rows after it are not below it.

1. `Box`: the least and greatest coordinates of some rows.
2. `Selection`: a rearrangement that puts the row of a given rank into its place.
3. `grow`: the permutation and the nodes of a range, from its rows.
4. `KdTree.build`: the tree of a matrix.
-/

namespace Proximity

/-! ## Boxes -/

/-- Least and greatest coordinates. -/
structure Box (α : Type) (d : Nat) where
  low : Point α d
  high : Point α d

namespace Box

variable {α : Type} [Neg α] [Scalar α] {d : Nat}

/-- The box of no point at all. -/
def empty : Box α d where
  low := Vector.replicate d Scalar.largest
  high := Vector.replicate d Scalar.smallest

/-- The box extended to a point. -/
def extend (b : Box α d) (x : Point α d) : Box α d where
  low := Vector.zipWith Scalar.min b.low x
  high := Vector.zipWith Scalar.max b.high x

/-- The box of some rows of a matrix. -/
def ofRows {n : Nat} (M : Matrix α n d) (rows : List (Fin n)) : Box α d :=
  rows.foldl (fun b i => b.extend (M.get i)) empty

end Box

/-! ## Nodes -/

/-- A leaf, or the row that a node splits at and the positions of the two nodes below it. -/
inductive Split (n : Nat) where
  | leaf
  | inner (point : Fin n) (left right : Nat)
  deriving Repr, DecidableEq

/-- Links moved by the position of the first node of a subtree. -/
def Split.shift {n : Nat} (offset : Nat) : Split n → Split n
  | leaf => leaf
  | inner point left right => inner point (left + offset) (right + offset)

/-- A node of a tree; it owns `length` places of the permutation from `start` on. -/
structure Node (α : Type) (n d : Nat) where
  dim : Fin d
  depth : Nat
  start : Nat
  length : Nat
  split : Split n
  box : Box α d

/-- The node with its links moved. -/
def Node.shift {α : Type} {n d : Nat} (offset : Nat) (v : Node α n d) : Node α n d :=
  { v with split := v.split.shift offset }

/-! ## Selection -/

/-- A way to rearrange a list around the place that an item of given rank has when the list is
sorted by a key. -/
structure Selection (ι α : Type) where
  run : (rank : Nat) → (key : ι → α) → List ι → List ι
  perm : ∀ rank key xs, (run rank key xs).Perm xs

/-- Selection by a stable sort of the whole list. -/
def Selection.bySorting (ι α : Type) [LT α] [DecidableLT α] : Selection ι α where
  run _ key xs := StableSort.sort (fun a b => key a < key b) xs
  perm _ _ xs := StableSort.sort_perm _ xs

/-! ## Growing a tree -/

/-- A permutation of the rows of a range, and the nodes over it with links relative to the first. -/
structure Growth (α : Type) (n d : Nat) where
  order : List (Fin n)
  nodes : Array (Node α n d)

section Grow

variable {α : Type} [LT α] [DecidableLT α] [Neg α] [Scalar α] {n d : Nat}

/-- A range is kept in one leaf. The doubled leaf size is a 64-bit word. -/
def keepsWhole (leafSize length : Nat) : Bool :=
  length < Memory.wrap (2 * leafSize) || length = 2

/-- The tree over a range of rows that starts at `start` in the permutation. The row of middle rank,
the lower one of two, becomes the point of the node. -/
def grow (S : Selection (Fin n) α) (M : Matrix α n d) (hd : 0 < d) (leafSize depth start : Nat)
    (rows : List (Fin n)) : Growth α n d :=
  if rows = [] then ⟨[], #[]⟩
  else
    let dim : Fin d := ⟨depth % d, Nat.mod_lt _ hd⟩
    let node (split : Split n) : Node α n d :=
      { dim, depth, start, length := rows.length, split, box := Box.ofRows M rows }
    if keepsWhole leafSize rows.length then ⟨rows, #[node .leaf]⟩
    else
      let mid := (rows.length - 1) / 2
      let arranged := S.run mid (M.entry · dim) rows
      match _ : arranged.drop mid with
      | [] => ⟨rows, #[node .leaf]⟩
      | point :: after =>
        let left := grow S M hd leafSize (depth + 1) start (arranged.take mid)
        let right := grow S M hd leafSize (depth + 1) (start + mid + 1) after
        let offset := 1 + left.nodes.size
        ⟨left.order ++ point :: right.order,
          #[node (.inner point 1 offset)] ++ left.nodes.map (Node.shift 1)
            ++ right.nodes.map (Node.shift offset)⟩
termination_by rows.length
decreasing_by
  · have hpos : 0 < rows.length := List.length_pos_iff.mpr ‹_›
    simp only [List.length_take]
    omega
  · have hlen : arranged.length = rows.length := (S.perm _ _ _).length_eq
    have hdrop : (point :: after).length = arranged.length - mid := by
      rw [← ‹arranged.drop mid = point :: after›, List.length_drop]
    simp only [List.length_cons] at hdrop
    omega

end Grow

/-- A k-d tree over the rows of a matrix. -/
structure KdTree (α : Type) (n d : Nat) where
  data : Matrix α n d
  leafSize : Nat
  indices : Array (Fin n)
  nodes : Array (Node α n d)

namespace KdTree

variable {α : Type} [LT α] [DecidableLT α] [Neg α] [Scalar α] {n d : Nat}

/-- Leaf size of a tree when none is asked for. -/
def defaultLeafSize : Nat := 30

/-- The tree of a matrix, split by a given selection, once there is room for it. -/
def buildWith (S : Selection (Fin n) α) (M : Matrix α n d) (leafSize : Nat) :
    Checked (KdTree α n d) :=
  if h : n = 0 ∨ d = 0 then .error (.invalid (.emptyTree n d))
  else if leafSize = 0 then .error (.invalid .leafSize)
  else
    let g := grow S M (by omega) leafSize 0 0 (List.finRange n)
    .ok { data := M, leafSize, indices := g.order.toArray, nodes := g.nodes }

/-- The tree of a matrix, if there is room for the permutation of its rows. -/
def build [Machine] (M : Matrix α n d) (leafSize : Nat) : Checked (KdTree α n d) := do
  let T ← buildWith (.bySorting _ _) M leafSize
  Memory.reserve Memory.indexBytes n
  return T

theorem build_eq [Machine] {M : Matrix α n d} {leafSize : Nat} {T : KdTree α n d}
    (h : buildWith (.bySorting _ _) M leafSize = .ok T) :
    build M leafSize = (Memory.reserve Memory.indexBytes n).map fun _ => T := by
  rw [build, h]
  rfl

/-- The tree of a grid, whose shape is looked at before its rows. -/
def ofGrid [Machine] (g : Grid α) (leafSize : Nat) : Checked (KdTree α g.rows g.cols) :=
  if g.rows = 0 ∨ g.cols = 0 then .error (.invalid (.emptyTree g.rows g.cols))
  else build g.entries leafSize

omit [LT α] [DecidableLT α] [Neg α] [Scalar α] in
/-- Depth of the deepest node; the root has depth zero. -/
def depth (T : KdTree α n d) : Nat := T.nodes.foldl (fun m v => max m v.depth) 0

omit [LT α] [DecidableLT α] [Neg α] [Scalar α] in
/-- The rows in the range of a node. -/
def rowsOf (T : KdTree α n d) (v : Node α n d) : List (Fin n) :=
  (T.indices.extract v.start (v.start + v.length)).toList

omit [LT α] [DecidableLT α] [Neg α] [Scalar α] in
/-- The permutation with the rows of every leaf in ascending order. -/
def leafSorted (T : KdTree α n d) : List (Fin n) :=
  T.nodes.foldl (fun rows v =>
    match v.split with
    | .leaf =>
      rows.take v.start ++ ((rows.drop v.start).take v.length).mergeSort
        ++ rows.drop (v.start + v.length)
    | .inner _ _ _ => rows) T.indices.toList

end KdTree

end Proximity
