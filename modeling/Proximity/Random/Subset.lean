import Proximity.Random.Uniform

/-!
# Random subsets

`k` different numbers below `n` in random order, by one of three ways that suit different sizes: a
shuffle cut short (`shuffled`), growth by one number at a time (`grown`), and draws that are repeated
until they are new (`redrawn`).
-/

namespace Proximity.Keystream

/-- The first `k` numbers of a shuffle of the numbers below `n`. -/
def shuffled (n k : Nat) (g : Keystream) : Option (List Nat × Keystream) := do
  let (xs, g) ← (List.range k).foldlM (fun (xs, g) i => do
    let (j, g) ← below32 (n - i) g
    return (xs.swapIfInBounds i (i + j), g)) (Array.range n, g)
  return (xs.toList.take k, g)

/-- The list with `y` put before the first `x`. -/
def insertBefore (x y : Nat) : List Nat → List Nat
  | [] => [y]
  | z :: zs => if z = x then y :: z :: zs else z :: insertBefore x y zs

/-- Subsets below this size are kept in random order while they grow. -/
def orderedGrowth : Nat := 50

/-- A subset grown by one number for each `j` from `n - k` on: a number up to `j`, or `j` itself when
that one is taken. -/
def grown (n k : Nat) (g : Keystream) : Option (List Nat × Keystream) := do
  let (xs, g) ← (List.range k).foldlM (fun (xs, g) i => do
    let j := n - k + i
    let (t, g) ← below32 (j + 1) g
    return (if k < orderedGrowth then if t ∈ xs then insertBefore t j xs else xs ++ [t]
      else xs ++ [if t ∈ xs then j else t], g)) ([], g)
  if k < orderedGrowth then return (xs, g)
  else
    let (xs, g) ← (List.range (k - 1)).foldlM (fun (xs, g) i => do
      let i := k - 1 - i
      let (j, g) ← below32 (i + 1) g
      return (xs.swapIfInBounds i j, g)) (xs.toArray, g)
    return (xs.toList, g)

/-- A number below `n` that is not in `taken`, from words of the given number of bits. -/
def fresh (bits : Nat) (next : Keystream → Nat × Keystream) (n : Nat) (taken : List Nat) :
    Keystream → Option (Nat × Keystream) :=
  repeatM fun g => (scaled bits next n (countedZone bits n) g).map fun p =>
    if p.1 ∈ taken then .inl p.2 else .inr p

/-- A number that is taken is drawn again. -/
theorem fresh_eq (bits : Nat) (next : Keystream → Nat × Keystream) (n : Nat) (taken : List Nat)
    (g : Keystream) :
    fresh bits next n taken g = (scaled bits next n (countedZone bits n) g).bind fun p =>
      if p.1 ∈ taken then fresh bits next n taken p.2 else some p := by
  conv => lhs; rw [fresh, repeatM_eq_of_monadTail]
  unfold repeatM.body
  dsimp only
  cases scaled bits next n (countedZone bits n) g with
  | none => rfl
  | some p =>
    simp only [Option.map_some, Option.bind_eq_bind, Option.bind_some]
    by_cases htaken : p.1 ∈ taken
    · rw [if_pos htaken, if_pos htaken]
      rfl
    · rw [if_neg htaken, if_neg htaken]
      rfl

/-- Numbers drawn one after another, each until it is new. -/
def redrawn (bits : Nat) (next : Keystream → Nat × Keystream) (n k : Nat) (g : Keystream) :
    Option (List Nat × Keystream) := do
  let (xs, g) ← (List.range k).foldlM (fun (xs, g) _ => do
    let (x, g) ← fresh bits next n xs g
    return (x :: xs, g)) ([], g)
  return (xs.reverse, g)

/-- Growth pays for subsets below this size. -/
def smallSubset : Nat := 163

/-- Shuffles pay for fewer subsets of as many numbers as this. -/
def manyNumbers : Nat := 500000

/-- A shuffle of `n` numbers pays for a subset of `k` of them, by estimates in single precision. It
never does for fewer than twelve numbers. -/
def shufflePays (n k : Nat) : Bool :=
  let size := Float32.ofNat n
  let drawn := Float32.ofNat k
  if k < smallSubset then
    let (slope, offset) := if n < manyNumbers then (1.6, 10) else (8 / 45, 70 / 9)
    11 < k && size < (offset + slope * drawn) * drawn
  else size < (if n < manyNumbers then 270 else 330 / 9) * drawn

/-- As many as `k` different numbers below `n`. Numbers that are no 32-bit words are drawn from 64-bit
words. -/
def subset (n k : Nat) (g : Keystream) : Option (List Nat × Keystream) :=
  if UInt32.size ≤ n then redrawn 64 next64 n k g
  else if shufflePays n k then shuffled n k g
  else if k < smallSubset then grown n k g
  else redrawn 32 next32 n k g

end Proximity.Keystream
