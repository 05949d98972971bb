import Proximity.Index

/-!
# A keystream of words

The ChaCha keystream with eight rounds, as an endless stream of 32-bit words. A `Keystream` is a key
with a position in its stream; `ofSeed` stretches a 64-bit seed to a key.
-/

namespace Proximity

/-- A key and the number of words already taken from its stream. -/
structure Keystream where
  key : Vector UInt32 8
  position : Nat

namespace Keystream

/-! ## Seeds -/

/-- One step of the linear generator that stretches a seed. -/
def seedStep (s : UInt64) : UInt64 := s * 6364136223846793005 + 11634580027462260723

/-- The word `x` rotated right by `r < 32` bits. -/
def rotateRight (x r : UInt32) : UInt32 := (x >>> r) ||| (x <<< ((32 - r) % 32))

/-- The key word that a state of the linear generator yields. -/
def seedWord (s : UInt64) : UInt32 :=
  rotateRight (((s >>> 18) ^^^ s) >>> 27).toUInt32 (s >>> 59).toUInt32

/-- The start of the stream of a seed. -/
def ofSeed (seed : UInt64) : Keystream where
  key := Vector.ofFn fun i : Fin 8 => seedWord (Nat.repeat seedStep (i.val + 1) seed)
  position := 0

/-- There is a number to draw, and a stream to go on with. -/
instance : Nonempty (Nat × Keystream) := ⟨0, ofSeed 0⟩

/-! ## Blocks -/

/-- The word `x` rotated left by `0 < r < 32` bits. -/
def rotateLeft (x r : UInt32) : UInt32 := (x <<< r) ||| (x >>> (32 - r))

/-- The state of a block. -/
abbrev State := Vector UInt32 16

/-- A quarter round on four words of the state. -/
def quarterRound (s : State) (a b c d : Fin 16) : State :=
  let s := s.put a (s.get a + s.get b)
  let s := s.put d (rotateLeft (s.get d ^^^ s.get a) 16)
  let s := s.put c (s.get c + s.get d)
  let s := s.put b (rotateLeft (s.get b ^^^ s.get c) 12)
  let s := s.put a (s.get a + s.get b)
  let s := s.put d (rotateLeft (s.get d ^^^ s.get a) 8)
  let s := s.put c (s.get c + s.get d)
  s.put b (rotateLeft (s.get b ^^^ s.get c) 7)

/-- A round on the columns of the state and one on its diagonals. -/
def doubleRound (s : State) : State :=
  let s := quarterRound s 0 4 8 12
  let s := quarterRound s 1 5 9 13
  let s := quarterRound s 2 6 10 14
  let s := quarterRound s 3 7 11 15
  let s := quarterRound s 0 5 10 15
  let s := quarterRound s 1 6 11 12
  let s := quarterRound s 2 7 8 13
  quarterRound s 3 4 9 14

/-- The state that block `counter` starts from. -/
def initial (key : Vector UInt32 8) (counter : Nat) : State :=
  #v[0x61707865, 0x3320646e, 0x79622d32, 0x6b206574,
    key[0], key[1], key[2], key[3], key[4], key[5], key[6], key[7],
    counter.toUInt32, (counter / UInt32.size).toUInt32, 0, 0]

/-- Sixteen words of the stream. -/
def block (key : Vector UInt32 8) (counter : Nat) : State :=
  let s := initial key counter
  Vector.zipWith (· + ·) (Nat.repeat doubleRound 4 s) s

/-! ## Words -/

/-- The next 32 bits of the stream. -/
def next32 (g : Keystream) : Nat × Keystream :=
  (((block g.key (g.position / 16)).get (Positive.remainder 16 g.position)).toNat,
    { g with position := g.position + 1 })

/-- The next 64 bits of the stream, the low half first. -/
def next64 (g : Keystream) : Nat × Keystream :=
  let (lo, g) := g.next32
  let (hi, g) := g.next32
  (lo + hi * UInt32.size, g)

end Keystream

end Proximity
