import Proximity.Matrix
import Proximity.Memory

/-!
# Matrices in flat storage

A matrix is exchanged as a flat buffer in one of two orders. `Order.slot` says where an entry lies
in a packed buffer and `Order.cell` is its inverse.

1. `readStrided`: a matrix in a buffer whose lines start `stride` slots apart.
2. `copyOut`: a buffer filled with a matrix from its front on; `writePacked` is the filled buffer.
3. `Stored`: a matrix that owns a packed buffer, and the buffer read back in either order.
-/

namespace Proximity

/-- The order in which a buffer holds the entries of a matrix. -/
inductive Order where
  | columnMajor
  | rowMajor
  deriving Repr, DecidableEq

namespace Order

variable {r c : Nat}

/-- Number of lines: columns or rows, by the order. -/
def lines (o : Order) (r c : Nat) : Nat :=
  match o with
  | columnMajor => c
  | rowMajor => r

/-- Entries in one line. -/
def lineLength (o : Order) (r c : Nat) : Nat :=
  match o with
  | columnMajor => r
  | rowMajor => c

/-- The line of entry `(i, j)`. -/
def line (o : Order) (i j : Nat) : Nat :=
  match o with
  | columnMajor => j
  | rowMajor => i

/-- The place of entry `(i, j)` in its line. -/
def place (o : Order) (i j : Nat) : Nat :=
  match o with
  | columnMajor => i
  | rowMajor => j

theorem line_lt (o : Order) {i j : Nat} (hi : i < r) (hj : j < c) : o.line i j < o.lines r c := by
  cases o <;> assumption

theorem place_lt (o : Order) {i j : Nat} (hi : i < r) (hj : j < c) :
    o.place i j < o.lineLength r c := by
  cases o <;> assumption

/-- The slot of entry `(i, j)` in a packed buffer. -/
def slot (o : Order) (r c i j : Nat) : Nat := o.line i j * o.lineLength r c + o.place i j

/-- The entry in slot `k` of a packed buffer. -/
def cell (o : Order) (k : Fin (r * c)) : Fin r × Fin c :=
  have hr : 0 < r := Nat.pos_of_mul_pos_right (Nat.zero_lt_of_lt k.isLt)
  have hc : 0 < c := Nat.pos_of_mul_pos_left (Nat.zero_lt_of_lt k.isLt)
  match o with
  | columnMajor => (⟨k % r, Nat.mod_lt _ hr⟩, ⟨k / r, Nat.div_lt_of_lt_mul k.isLt⟩)
  | rowMajor =>
    (⟨k / c, Nat.div_lt_of_lt_mul (Nat.mul_comm r c ▸ k.isLt)⟩, ⟨k % c, Nat.mod_lt _ hc⟩)

theorem slot_lt (o : Order) (i : Fin r) (j : Fin c) : o.slot r c i j < r * c := by
  cases o with
  | columnMajor => exact Nat.mul_comm r c ▸ Matrix.slot_lt j.isLt i.isLt
  | rowMajor => exact Matrix.slot_lt i.isLt j.isLt

/-- An entry is found in its slot. -/
theorem cell_slot (o : Order) (i : Fin r) (j : Fin c) :
    o.cell ⟨o.slot r c i j, o.slot_lt i j⟩ = (i, j) := by
  have quotient {m a b : Nat} (hb : b < m) : (a * m + b) / m = a := by
    rw [Nat.mul_comm, Nat.mul_add_div (Nat.zero_lt_of_lt hb), Nat.div_eq_of_lt hb, Nat.add_zero]
  have remainder {m a b : Nat} (hb : b < m) : (a * m + b) % m = b := by
    rw [Nat.mul_comm, Nat.mul_add_mod, Nat.mod_eq_of_lt hb]
  cases o with
  | columnMajor => exact Prod.ext (Fin.ext (remainder i.isLt)) (Fin.ext (quotient i.isLt))
  | rowMajor => exact Prod.ext (Fin.ext (quotient j.isLt)) (Fin.ext (remainder j.isLt))

/-- A slot holds the entry of its cell. -/
theorem slot_cell (o : Order) (k : Fin (r * c)) :
    o.slot r c (o.cell k).1 (o.cell k).2 = k.val := by
  cases o with
  | columnMajor => exact Nat.div_add_mod' k.val r
  | rowMajor => exact Nat.div_add_mod' k.val c

end Order

/-! ## Reading -/

/-- The slots that a strided matrix spans: all lines but the last have `stride` slots. -/
def span (stride lines lineLength : Nat) : Nat := (lines - 1) * stride + lineLength

theorem slot_lt_span {stride lines lineLength l p : Nat} (hl : l < lines) (hp : p < lineLength) :
    l * stride + p < span stride lines lineLength := by
  have : l * stride ≤ (lines - 1) * stride := Nat.mul_le_mul_right _ (by omega)
  unfold span; omega

/-- Why a matrix that does not lie in its buffer has no strided view. The distance between lines
is a signed 64-bit number. -/
def layoutFault (bytes stride lines lineLength : Nat) : LayoutFault :=
  let step := if stride ≤ Memory.limit then stride else UInt64.size - stride
  let extent := (lines - 1) * step + (lineLength - 1)
  if lines * lineLength ≤ Memory.limit ∧ extent * bytes ≤ Memory.limit then .outOfBounds
  else .overflow

/-- The `r × c` matrix in a buffer whose lines start `stride` slots apart. The required length is
computed in 64-bit words. -/
def readStrided {α : Type} [Scalar α] (buffer : Array α) (r c stride : Nat) (o : Order) :
    Checked (Grid α) :=
  let lines := o.lines r c
  let lineLength := o.lineLength r c
  let required := Memory.wrap (span stride lines lineLength)
  if r = 0 ∨ c = 0 then .error (.invalid (.emptyShape r c))
  else if stride < lineLength then .error (.tooShort lineLength (.stride stride lineLength))
  else if buffer.size < required then .error (.tooShort required (.storage buffer.size))
  else if h : span stride lines lineLength ≤ buffer.size then
    .ok (Grid.ofMatrix (Matrix.ofFn fun (i : Fin r) (j : Fin c) =>
      have : o.line i j * stride + o.place i j < buffer.size := Nat.lt_of_lt_of_le
        (slot_lt_span (o.line_lt i.isLt j.isLt) (o.place_lt i.isLt j.isLt)) h
      buffer[o.line i j * stride + o.place i j]))
  else .error (.invalid (.layout (layoutFault (Scalar.bytes α) stride lines lineLength)))

/-! ## Writing -/

/-- How filling a buffer ends, and the buffer that it leaves. -/
abbrev Filling (β : Type) := Checked Unit × Array β

/-- The buffer, if it has been filled. -/
def Filling.result {β : Type} (f : Filling β) : Checked (Array β) := f.1.map fun _ => f.2

/-- Values written into a buffer one after another, each into a slot of its own. -/
def writeAt {β : Type} {m : Nat} (slot : Fin m → Nat) (value : Fin m → β) (out : Array β) : Array β :=
  Fin.foldl m (fun out k => out.setIfInBounds (slot k) (value k)) out

/-- A buffer filled with a matrix, entry by entry along its rows. -/
def copyOut {α : Type} (g : Grid α) (out : Array α) (o : Order) : Filling α :=
  let required := g.rows * g.cols
  let cell : Fin required → Fin g.rows × Fin g.cols := Order.rowMajor.cell
  if out.size < required then (.error (.tooShort required (.output out.size)), out)
  else
    (.ok (), writeAt (fun k => o.slot g.rows g.cols (cell k).1 (cell k).2)
      (fun k => g.entry (cell k).1 (cell k).2) out)

/-- The buffer with the matrix packed into its front, and the rest as it was. -/
def writePacked {α : Type} (g : Grid α) (out : Array α) (o : Order) : Checked (Array α) :=
  (copyOut g out o).result

/-! ## Owning -/

/-- An `r × c` matrix that owns a packed buffer. -/
structure Stored (α : Type) (r c : Nat) where
  order : Order
  buffer : Vector α (r * c)

namespace Stored

variable {α : Type} {r c : Nat}

/-- A matrix copied into a packed buffer. -/
def ofGrid (o : Order) (g : Grid α) : Stored α g.rows g.cols where
  order := o
  buffer := Vector.ofFn fun k => g.entry (o.cell k).1 (o.cell k).2

/-- Slots between neighbouring rows, and between neighbouring columns. An empty matrix has no
distances. -/
def strides (s : Stored α r c) : Nat × Nat :=
  if r = 0 ∨ c = 0 then (0, 0)
  else
    match s.order with
    | .columnMajor => (1, r)
    | .rowMajor => (c, 1)

/-- The entry in row `i` and column `j`. -/
def entry (s : Stored α r c) (i : Fin r) (j : Fin c) : α :=
  s.buffer.get ⟨s.order.slot r c i j, s.order.slot_lt i j⟩

/-- The buffer, if it lists the entries column by column. -/
def columnSlice (s : Stored α r c) : Checked (Vector α (r * c)) :=
  if 1 < r ∧ s.strides.1 ≠ 1 then .error (.invalid .notColumnMajor) else .ok s.buffer

/-- The buffer, if it lists the entries row by row. -/
def rowSlice (s : Stored α r c) : Checked (Vector α (r * c)) :=
  if r = 0 ∨ c = 0 ∨ (c = 1 ∨ s.strides.2 = 1) ∧ (r = 1 ∨ s.strides.1 = c) then .ok s.buffer
  else .error (.invalid .notRowMajor)

end Stored

end Proximity
