import Proximity.Random.Sampler
import Proximity.Random.Subset
import Proximity.Scalar

/-!
# Weighted choices, and the generator of keystreams

A weighted choice compares a uniform number below the total weight with the running totals. With it
a keystream answers all that `Sampler` asks. It is one source of randomness among others.
-/

namespace Proximity.Keystream

/-- The running totals before each weight but the first, and the total. -/
def runningTotals : List Float → List Float × Float
  | [] => ([], 0)
  | w :: ws =>
    let (totals, total) := ws.foldl (fun (totals, total) w => (total :: totals, total + w)) ([], w)
    (totals.reverse, total)

/-- The total, or the number below it where the largest fraction of it is not smaller. -/
def scaleBelow (total : Float) : Float :=
  if total ≤ total * (1 - Float.scaleB 1 (-52)) then Float.ofBits (total.toBits - 1) else total

/-- A number from zero to below one with 52 bits. -/
def fraction (g : Keystream) : Float × Keystream :=
  let (word, g) := g.next64
  (Float.ofBits ((word / 4096).toUInt64 ||| 0x3FF0000000000000) - 1, g)

/-- The number of running totals that a uniform number below the total has reached. -/
def pickWeighted (totals : List Float) (total : Float) (g : Keystream) : Nat × Keystream :=
  let (f, g) := g.fraction
  let u := f * scaleBelow total + 0
  ((totals.filter (· ≤ u)).length, g)

/-- The random choices of a keystream. -/
def sampler (α : Type) [Scalar α] : Sampler Keystream α where
  below n _ g :=
    let (x, g) := (below64 n g).getD (0, g)
    (Positive.remainder n x, g)
  distinct n k g :=
    let (xs, g) := (subset n k g).getD ([], g)
    (xs.filterMap fun x => if h : x < n then some ⟨x, h⟩ else none, g)
  weighted {n} _ weights :=
    let (totals, total) := runningTotals (weights.toList.map Scalar.toFloat)
    if total == 0 then .ok none
    else if total.isFinite then
      .ok <| some fun g =>
        let (x, g) := pickWeighted totals total g
        (Positive.remainder n x, g)
    else .error .unboundedWeights

/-- The keystreams of all seeds. -/
def generator (α : Type) [Scalar α] : Generator Keystream α where
  toSampler := sampler α
  ofSeed := ofSeed

end Proximity.Keystream
