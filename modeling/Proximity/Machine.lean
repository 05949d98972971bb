/-!
# Machines

What a program finds on the machine that it runs on: how much storage a buffer may take, and the
registers of its kernels. All else is the same on every machine, and nothing is assumed of one.
-/

namespace Proximity

/-- Vector widths: one number at a time, or registers of 128, 256 or 512 bits. -/
inductive Lanes.Width where
  | scalar
  | avx
  | avx2
  | avx512
  deriving Repr, DecidableEq

/-- The machine that a program runs on. -/
class Machine where
  /-- The most bytes of storage that one buffer is given. -/
  available : Nat
  /-- The widest kernel that can be run. -/
  widest : Lanes.Width

/-- A machine with a tebibyte for each buffer and registers of 256 bits. -/
@[reducible] def Machine.standard : Machine where
  available := 1099511627776
  widest := .avx2

end Proximity
