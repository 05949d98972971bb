import Proximity.Point

/-!
# Matrices

A matrix is a vector of rows, each a point; its shape is part of its type. A `Grid` is a matrix
together with its shape, for data whose shape is known only when they arrive. It holds the entries row
after row, so that a grid without entries takes no room, however many rows it has. `Grid.ofMatrix` and
`Grid.entries` are inverse to each other; `Grid.shaped?` gives the matrix at an expected shape.
-/

namespace Proximity

/-- An `r × c` matrix, row by row. -/
abbrev Matrix (α : Type) (r c : Nat) := Vector (Point α c) r

namespace Matrix

variable {α β : Type} {r c : Nat}

/-- The matrix with entries `f i j`. -/
def ofFn (f : Fin r → Fin c → α) : Matrix α r c := Vector.ofFn fun i => Vector.ofFn (f i)

/-- The matrix with all entries `v`. Without rows there is no row to make. -/
def const : (r c : Nat) → α → Matrix α r c
  | 0, _, _ => #v[]
  | r + 1, c, v => Vector.replicate (r + 1) (Vector.replicate c v)

/-- The entry in row `i` and column `j`. -/
def entry (M : Matrix α r c) (i : Fin r) (j : Fin c) : α := (M.get i).get j

/-- The rows as lists. -/
def toLists (M : Matrix α r c) : List (List α) := M.toList.map (·.toList)

@[simp] theorem ofFn_getElem (f : Fin r → Fin c → α) (i j : Nat) (hi : i < r) (hj : j < c) :
    ((ofFn f)[i])[j] = f ⟨i, hi⟩ ⟨j, hj⟩ := by simp [ofFn]

theorem const_eq_replicate (r c : Nat) (v : α) :
    const r c v = Vector.replicate r (Vector.replicate c v) := by
  cases r <;> rfl

/-- A matrix is given by its entries. -/
theorem ofFn_entry (M : Matrix α r c) : ofFn M.entry = M := by
  apply Vector.ext; intro i hi
  apply Vector.ext; intro j hj
  exact ofFn_getElem _ _ _ hi hj

@[simp] theorem const_getElem (v : α) (i j : Nat) (hi : i < r) (hj : j < c) :
    ((const r c v)[i])[j] = v := by simp [const_eq_replicate]

section Norm

variable [Add α] [Mul α] [Scalar α]

/-- The squared norm of every row. -/
def squaredNorms (M : Matrix α r c) : Vector α r := M.map Point.squaredNorm

/-- The square root of the sum of all squared entries, added row by row. -/
def frobeniusNorm (M : Matrix α r c) : α :=
  Scalar.sqrt <| M.foldl (fun acc row => row.foldl (fun acc x => acc + x * x) acc) Scalar.zero

@[simp] theorem squaredNorms_getElem (M : Matrix α r c) (i : Nat) (h : i < r) :
    M.squaredNorms[i] = M[i].squaredNorm := by simp [squaredNorms]

end Norm

/-! ## Flat entries -/

theorem slot_lt {i j : Nat} (hi : i < r) (hj : j < c) : i * c + j < r * c := calc
  i * c + j < i * c + c := Nat.add_lt_add_left hj _
  _ = (i + 1) * c := (Nat.succ_mul _ _).symm
  _ ≤ r * c := Nat.mul_le_mul_right _ hi

/-- The row of `c` entries from a slot on, if there are so many. -/
def rowAt? (entries : Array α) (c slot : Nat) : Option (Point α c) :=
  if h : slot + c ≤ entries.size then
    some <| Vector.ofFn fun j =>
      have : slot + j.val < entries.size := by omega
      entries[slot + j.val]
  else none

/-- The matrix whose rows are listed at the front of some entries, if there are so many. -/
def ofFlat? (entries : Array α) (r c : Nat) : Option (Matrix α r c) :=
  if h : r * c ≤ entries.size then
    some <| ofFn fun i j =>
      have : i.val * c + j.val < entries.size := Nat.lt_of_lt_of_le (slot_lt i.isLt j.isLt) h
      entries[i.val * c + j.val]
  else none

end Matrix

/-- A matrix of any shape, with its entries row after row. -/
structure Grid (α : Type) where
  rows : Nat
  cols : Nat
  flat : Vector α (rows * cols)

namespace Grid

variable {α : Type} {r c : Nat}

/-- The entry in row `i` and column `j`. -/
def entry (g : Grid α) (i : Fin g.rows) (j : Fin g.cols) : α :=
  g.flat.get ⟨i.val * g.cols + j.val, Matrix.slot_lt i.isLt j.isLt⟩

/-- The grid as a matrix. -/
def entries (g : Grid α) : Matrix α g.rows g.cols := Matrix.ofFn g.entry

/-- The grid of a matrix. -/
def ofMatrix (M : Matrix α r c) : Grid α := ⟨r, c, M.flatten⟩

/-- The grid with all entries `v`. -/
def const (r c : Nat) (v : α) : Grid α := ⟨r, c, Vector.replicate _ v⟩

/-- The matrix of a grid that has the expected shape. -/
def shaped? (g : Grid α) (r c : Nat) : Option (Matrix α r c) :=
  if h : g.rows = r ∧ g.cols = c then
    some (Matrix.ofFn fun i j => g.entry (i.cast h.1.symm) (j.cast h.2.symm))
  else none

/-- The rows of a grid that has the expected number of columns. -/
def withCols? (g : Grid α) (c : Nat) : Option (Matrix α g.rows c) := g.shaped? g.rows c

/-- The line among `m` that stands for line `i` among `n`, where a single line stands for all. -/
def standIn (h : m = n ∨ m = 1) (i : Fin n) : Fin m :=
  if hm : m = 1 then ⟨0, by omega⟩ else ⟨i.val, by omega⟩

/-- The matrix of a grid at an expected shape, where a single row or column stands for all. -/
def spread? (g : Grid α) (r c : Nat) : Option (Matrix α r c) :=
  if h : (g.rows = r ∨ g.rows = 1) ∧ (g.cols = c ∨ g.cols = 1) then
    some (Matrix.ofFn fun i j => g.entry (standIn h.1 i) (standIn h.2 j))
  else none

/-- The square root of the sum of all squared entries, added row by row. -/
def frobeniusNorm [Add α] [Mul α] [Scalar α] (g : Grid α) : α :=
  Scalar.sqrt <| g.flat.foldl (fun acc x => acc + x * x) Scalar.zero

/-! ## Grids and matrices -/

@[simp] theorem entry_ofMatrix (M : Matrix α r c) (i : Fin r) (j : Fin c) :
    (ofMatrix M).entry i j = M.entry i j := by
  have hc : 0 < c := Nat.zero_lt_of_lt j.isLt
  have row : (i.val * c + j.val) / c = i.val := by
    rw [Nat.mul_comm, Nat.mul_add_div hc, Nat.div_eq_of_lt j.isLt, Nat.add_zero]
  have col : (i.val * c + j.val) % c = j.val := by
    rw [Nat.mul_comm, Nat.mul_add_mod, Nat.mod_eq_of_lt j.isLt]
  have : i.val * c + j.val < r * c := Matrix.slot_lt i.isLt j.isLt
  show M.flatten[i.val * c + j.val] = M[i.val][j.val]
  simp only [Vector.getElem_flatten, row, col]

@[simp] theorem entries_ofMatrix (M : Matrix α r c) : (ofMatrix M).entries = M :=
  (congrArg Matrix.ofFn (funext fun i => funext fun j => entry_ofMatrix M i j)).trans
    (Matrix.ofFn_entry M)

@[simp] theorem ofMatrix_entries (g : Grid α) : ofMatrix g.entries = g := by
  have : g.entries.flatten = g.flat := by
    apply Vector.ext; intro k hk
    have row : k / g.cols < g.rows := Nat.div_lt_of_lt_mul (Nat.mul_comm _ _ ▸ hk)
    have col : k % g.cols < g.cols := Nat.mod_lt _ (Nat.pos_of_mul_pos_left (Nat.zero_lt_of_lt hk))
    rw [Vector.getElem_flatten]
    exact (Matrix.ofFn_getElem g.entry _ _ row col).trans (getElem_congr_idx (Nat.div_add_mod' _ _))
  exact congrArg (Grid.mk g.rows g.cols) this

@[simp] theorem frobeniusNorm_ofMatrix [Add α] [Mul α] [Scalar α] (M : Matrix α r c) :
    (ofMatrix M).frobeniusNorm = M.frobeniusNorm := by
  simp [frobeniusNorm, Matrix.frobeniusNorm, ofMatrix]

@[simp] theorem shaped?_ofMatrix (M : Matrix α r c) : (ofMatrix M).shaped? r c = some M := by
  have h : (ofMatrix M).rows = r ∧ (ofMatrix M).cols = c := ⟨rfl, rfl⟩
  rw [shaped?, dif_pos h]
  exact congrArg some (entries_ofMatrix M)

theorem shaped?_eq_none {g : Grid α} (h : ¬ (g.rows = r ∧ g.cols = c)) :
    g.shaped? r c = none := dif_neg h

end Grid

end Proximity
