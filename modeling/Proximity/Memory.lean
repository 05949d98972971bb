import Proximity.Error
import Proximity.Machine

/-!
# The address space

Sizes are 64-bit words, and products and sums of sizes that come from a caller keep their low 64
bits. A size of an object is at most `2 ^ 63 - 1`, and storage for one buffer is at most what the
machine gives.

1. `reserve` and `filled`: a buffer, or an error when there is no room for it.
2. `demand`: a buffer that is taken for granted.
3. `checkShape`: the shape of a matrix.
-/

namespace Proximity.Memory

/-- The low 64 bits of a size. -/
def wrap (n : Nat) : Nat := n % UInt64.size

theorem wrap_lt (n : Nat) : wrap n < UInt64.size := Nat.mod_lt _ (by decide)

theorem wrap_of_lt {n : Nat} (h : n < UInt64.size) : wrap n = n := Nat.mod_eq_of_lt h

/-- The greatest size of an object. -/
def limit : Nat := 9223372036854775807

/-- Size in bytes of an index. -/
def indexBytes : Nat := 8

/-! ## Buffers -/

section Buffers

variable [Machine]

/-- There is room for `len` items of the given size. -/
def Fits (bytes len : Nat) : Prop := len * bytes ≤ Machine.available

instance (bytes len : Nat) : Decidable (Fits bytes len) :=
  inferInstanceAs (Decidable (_ ≤ _))

/-- Room for `len` items of the given size. -/
def reserve (bytes len : Nat) : Checked Unit :=
  if Fits bytes len then .ok () else .error .outOfMemory

/-- Room for `len` items of the given size, where a lack of room is not reported to the caller. -/
def demand (bytes len : Nat) : Outcome Unit :=
  if Fits bytes len then .ok () else .error (.breach .capacity)

/-- A buffer of `len` copies of `v`. -/
def filled {β : Type} (bytes len : Nat) (v : β) : Checked (Vector β len) := do
  reserve bytes len
  return Vector.replicate len v

theorem reserve_eq_ok {bytes len : Nat} : reserve bytes len = .ok () ↔ Fits bytes len := by
  unfold reserve; split <;> simp [*]

end Buffers

/-! ## Shapes -/

/-- The extents other than zero have a product that is a size, also where the matrix is empty. -/
def checkShape (r c : Nat) : Checked Unit :=
  if max 1 r * max 1 c ≤ limit then .ok () else .error (.invalid (.layout .overflow))

end Proximity.Memory
