import Proximity.Error
import Proximity.Index

/-!
# Random choices

What a random seeding asks of a source of randomness. The source has a state of its own, which every
draw hands on; what is drawn is otherwise left open, so that a statement about a seeding can speak
of all outcomes.

1. `Sampler`: the draws.
2. `Generator`: draws from a state that belongs to a seed, or from one that was gathered where there
   is no seed.
-/

namespace Proximity

/-- A source of random choices with states in `σ` and weights in `α`. -/
structure Sampler (σ α : Type) where
  /-- A number below `n`. -/
  below : (n : Nat) → [Positive n] → σ → Fin n × σ
  /-- As many as `k` different numbers below `n`, for `k ≤ n`. -/
  distinct : (n k : Nat) → σ → List (Fin n) × σ
  /-- Numbers below `n`, each with a probability proportional to its weight; nothing when there is no
  positive weight, and a breach when the weights have no finite total. -/
  weighted : {n : Nat} → [Positive n] → Vector α n → Except Breach (Option (σ → Fin n × σ))

/-- A source of random choices with a state for each seed. -/
structure Generator (σ α : Type) extends Sampler σ α where
  ofSeed : UInt64 → σ

/-- The state that draws start from: the one of the seed, or else the one that was gathered. -/
def Generator.start {σ α : Type} (G : Generator σ α) (seed : Option UInt64) (entropy : σ) : σ :=
  match seed with
  | some s => G.ofSeed s
  | none => entropy

/-- Draws made one after another. -/
def Sampler.repeated {σ β : Type} (draw : σ → β × σ) : (count : Nat) → σ → List β × σ
  | 0, s => ([], s)
  | count + 1, s =>
    let (x, s) := draw s
    let (xs, s) := repeated draw count s
    (x :: xs, s)

end Proximity
