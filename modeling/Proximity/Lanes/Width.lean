import Proximity.Machine
import Proximity.Scalar

/-!
# Lane widths

A kernel works on several columns at once, its lanes. The width of a kernel is chosen from small
tables by the number of clusters or features, or pinned by the caller, and never exceeds the widest one
that the machine can run.
Rows that a kernel reads are padded so that the last chunk of lanes is whole: `covered_le` says
that the padding suffices.
-/

namespace Proximity.Lanes

namespace Width

/-- Bytes of a register; none for single numbers. -/
def registerBytes : Width → Nat
  | scalar => 0
  | avx => 16
  | avx2 => 32
  | avx512 => 64

/-- Numbers of the given size that are processed together. -/
def lanes (bytes : Nat) (w : Width) : Nat :=
  if w = scalar then 1 else w.registerBytes / bytes

/-- Columns added to a row so that its last chunk is whole. -/
def padding (bytes : Nat) (w : Width) : Nat :=
  if w = scalar then 0 else w.lanes bytes

theorem lanes_pos {bytes : Nat} (h : bytes = 4 ∨ bytes = 8) (w : Width) : 0 < w.lanes bytes := by
  rcases h with rfl | rfl <;> cases w <;> decide

/-- The requested width, or the widest one if that is narrower. -/
def cap [Machine] (w : Width) : Width :=
  if w.registerBytes ≤ Machine.widest.registerBytes then w else Machine.widest

end Width

/-! ## Chunks -/

/-- Chunks of `L` columns that `K` columns begin. -/
def chunks (L K : Nat) : Nat := (K + L - 1) / L

/-- Columns in whole chunks of `L` that cover `K` columns. -/
def covered (L K : Nat) : Nat := chunks L K * L

/-- Lane `l` of chunk `c` is a column of every row that holds the chunks. -/
theorem column_lt {L K ld : Nat} (h : covered L K ≤ ld) (c : Fin (chunks L K)) (l : Fin L) :
    c.val * L + l.val < ld :=
  calc c.val * L + l.val < c.val * L + L := Nat.add_lt_add_left l.isLt _
    _ = (c.val + 1) * L := (Nat.succ_mul _ _).symm
    _ ≤ chunks L K * L := Nat.mul_le_mul_right _ c.isLt
    _ ≤ ld := h

theorem covered_le_add (L K : Nat) : covered L K ≤ K + L - 1 := Nat.div_mul_le_self _ _

theorem le_covered {L : Nat} (hL : 0 < L) (K : Nat) : K ≤ covered L K := by
  have := Nat.div_add_mod' (K + L - 1) L
  have := Nat.mod_lt (K + L - 1) hL
  unfold covered chunks
  omega

theorem covered_one (K : Nat) : covered 1 K = K := by simp [covered, chunks]

/-- Chunks of a kernel stay within a row of `K` columns and the padding of its width. -/
theorem covered_le (bytes K : Nat) (w : Width) :
    covered (w.lanes bytes) K ≤ K + w.padding bytes := by
  by_cases hw : w = .scalar
  · simp [Width.lanes, Width.padding, hw, covered_one]
  · have := covered_le_add (w.lanes bytes) K
    simp only [Width.padding, if_neg hw]
    omega

/-! ## Choosing a width -/

/-- Upper bounds of a size, each with the width used up to it. -/
abbrev Table := List (Nat × Width)

/-- The width of the first bound that is not exceeded. -/
def Table.lookup (t : Table) (size : Nat) : Width :=
  match t.find? (size ≤ ·.1) with
  | some (_, w) => w
  | none => .scalar

/-- The largest size. -/
def anySize : Nat := UInt64.size - 1

variable [Machine]

/-- The machine has registers of 512 bits. Its tables are then of their own. -/
def hasWideRegisters : Bool := Machine.widest = .avx512

/-- Widths of the assignment kernel by the number of clusters. -/
def assignmentTable (bytes : Nat) : Table :=
  match decide (bytes = 4), hasWideRegisters with
  | true, false => [(2, .scalar), (16, .avx), (anySize, .avx2)]
  | false, false => [(6, .avx), (anySize, .avx2)]
  | true, true => [(4, .scalar), (16, .avx), (anySize, .avx2)]
  | false, true => [(4, .scalar), (6, .avx), (19, .avx2), (anySize, .avx512)]

/-- Widths of the bound update by the number of clusters. -/
def boundTable (bytes : Nat) : Table :=
  match decide (bytes = 4), hasWideRegisters with
  | true, _ => [(4, .avx), (anySize, .avx2)]
  | false, false => [(anySize, .avx2)]
  | false, true => [(6, .avx), (15, .avx2), (anySize, .avx512)]

/-- Widths of the squared distance by the number of features. -/
def distanceTable (bytes : Nat) : Table :=
  match decide (bytes = 4), hasWideRegisters with
  | true, false => [(anySize, .scalar)]
  | false, false => [(4, .scalar), (16, .avx), (anySize, .avx2)]
  | true, true => [(anySize, .avx)]
  | false, true => [(4, .scalar), (8, .avx), (15, .avx2), (anySize, .avx512)]

/-- Width of the assignment kernel. -/
def assignmentWidth (bytes clusters : Nat) (pinned : Option Width) : Width :=
  (pinned.getD ((assignmentTable bytes).lookup clusters)).cap

/-- Width of the bound update. -/
def boundWidth (bytes clusters : Nat) (pinned : Option Width) : Width :=
  (pinned.getD ((boundTable bytes).lookup clusters)).cap

/-- Width of the squared distance in searches with bounds. -/
def distanceWidth (bytes features : Nat) (pinned : Option Width) : Width :=
  (pinned.getD ((distanceTable bytes).lookup features)).cap

end Proximity.Lanes
