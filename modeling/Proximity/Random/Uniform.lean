import Proximity.Random.Keystream

/-!
# Uniform numbers

A number below `range` from a word of `bits` bits: the high half of the product of word and range. A
word whose low half is above a zone is drawn again, so that every number has equally many words. How
often that happens is not bounded.
-/

namespace Proximity.Keystream

/-- The high half of the first product whose low half is at most `zone`. -/
def scaled (bits : Nat) (next : Keystream → Nat × Keystream) (range zone : Nat) :
    Keystream → Option (Nat × Keystream) :=
  repeatM fun g =>
    let product := (next g).1 * range
    some (if product % Nat.pow 2 bits ≤ zone then .inr (product / Nat.pow 2 bits, (next g).2)
      else .inl (next g).2)

/-- A word with a greater low half is left out. -/
theorem scaled_eq (bits : Nat) (next : Keystream → Nat × Keystream) (range zone : Nat) (g : Keystream) :
    scaled bits next range zone g =
      if (next g).1 * range % Nat.pow 2 bits ≤ zone then
        some ((next g).1 * range / Nat.pow 2 bits, (next g).2)
      else scaled bits next range zone (next g).2 := by
  conv => lhs; rw [scaled, repeatM_eq_of_monadTail]
  unfold repeatM.body
  dsimp only
  split <;> rfl

/-- The largest low half accepted: the range shifted to the top of a word, less one. -/
def shiftedZone (bits range : Nat) : Nat := range * Nat.pow 2 (bits - 1 - range.log2) - 1

/-- A number below `range` from 32-bit words. -/
def below32 (range : Nat) : Keystream → Option (Nat × Keystream) :=
  scaled 32 next32 range (shiftedZone 32 range)

/-- A number below `range` from 64-bit words. -/
def below64 (range : Nat) : Keystream → Option (Nat × Keystream) :=
  scaled 64 next64 range (shiftedZone 64 range)

/-- The largest low half accepted when the words that are too many are counted. -/
def countedZone (bits range : Nat) : Nat := Nat.pow 2 bits - 1 - (Nat.pow 2 bits - range) % range

end Proximity.Keystream
