/-!
# Decimals

Binary numbers written in decimal with as few digits as possible. A positive binary number
`m · 2 ^ q` owns the interval of reals that round to it; `Decimal.ofBits` finds the coarsest grid
of powers of ten with a point in that interval, and on it the point nearest to the number.

1. `BinaryFormat`: how the bits of a number are laid out.
2. `shortest`: the digits and the power of ten of a positive number.
3. `Decimal.text`: positional notation, with no exponent and no superfluous zeros.
-/

namespace Proximity

/-- A decimal text before it is laid out: `± digits · 10 ^ scale`, or a value that has no digits. -/
inductive Decimal where
  | nan
  | infinite (negative : Bool)
  | finite (negative : Bool) (digits : Nat) (scale : Int)
  deriving Repr, DecidableEq

/-- Widths of the two fields that follow the sign bit of a binary number. -/
structure BinaryFormat where
  exponentBits : Nat
  fractionBits : Nat

/-- Eight-byte binary numbers. -/
def BinaryFormat.double : BinaryFormat := ⟨11, 52⟩

/-- Four-byte binary numbers. -/
def BinaryFormat.single : BinaryFormat := ⟨8, 23⟩

namespace Decimal

/-! ## The nearest point of the coarsest grid -/

/-- A positive rational `num / den`, with the ends of an interval around it over the same
denominator. The ends belong to the interval when `closed` holds. -/
structure Window where
  num : Nat
  den : Nat
  low : Nat
  high : Nat
  closed : Bool

namespace Window

/-- Whether `c / den` lies in the window, for a numerator `c` over the window's denominator. -/
def contains (w : Window) (c : Nat) : Bool :=
  if w.closed then w.low ≤ c && c ≤ w.high else w.low < c && c < w.high

/-- The window in units of `10 ^ k`. -/
def rescale (w : Window) (k : Int) : Window :=
  if 0 ≤ k then { w with den := w.den * Nat.pow 10 k.toNat }
  else
    let f := Nat.pow 10 (-k).toNat
    { w with num := w.num * f, low := w.low * f, high := w.high * f }

/-- The integer in the window that is nearest to its rational, if there is one; of two equally
near ones the larger. -/
def nearestInteger? (w : Window) : Option Nat :=
  let c := w.num / w.den
  let below := w.contains (c * w.den)
  let above := w.contains ((c + 1) * w.den)
  if above && (!below || w.den ≤ 2 * (w.num % w.den)) then some (c + 1)
  else if below then some c
  else none

end Window

/-- Position of the leading decimal digit: the largest `e` with `10 ^ e ≤ num / den`, searched
downwards for at most `fuel` places when the rational is below one. -/
def leadingPlace (num den : Nat) : (fuel : Nat) → Int
  | 0 => 0
  | fuel + 1 =>
    if den ≤ num then ((Nat.toDigits 10 (num / den)).length : Int) - 1
    else leadingPlace (num * 10) den fuel - 1

/-- The first grid, from `10 ^ k` downwards, with a point in the window, and that point. -/
def coarsest (w : Window) (k : Int) : (fuel : Nat) → Nat × Int
  | 0 => (w.num / w.den, 0)
  | fuel + 1 =>
    match (w.rescale k).nearestInteger? with
    | some c => (c, k)
    | none => coarsest w (k - 1) fuel

/-- Trailing zeros moved from the digits into the power of ten. -/
def trimZeros (digits : Nat) (scale : Int) : (fuel : Nat) → Nat × Int
  | 0 => (digits, scale)
  | fuel + 1 =>
    if digits ≠ 0 ∧ digits % 10 = 0 then trimZeros (digits / 10) (scale + 1) fuel
    else (digits, scale)

/-- Digits and power of ten of `m · 2 ^ q`. Half a unit to either side rounds to the number; below
the least mantissa of a binade (`edge`) the neighbour is half as far. -/
def shortest (m : Nat) (q : Int) (edge : Bool) : Nat × Int :=
  let up := Nat.pow 2 (q - 2).toNat
  let w : Window :=
    { num := 4 * m * up
      den := Nat.pow 2 (2 - q).toNat
      low := (4 * m - if edge then 1 else 2) * up
      high := (4 * m + 2) * up
      closed := m % 2 == 0 }
  let (c, k) := coarsest w (leadingPlace w.num w.den (2 - q).toNat.succ) 20
  trimZeros c k 20

/-- The decimal of the number with the given bits. -/
def ofBits (f : BinaryFormat) (bits : Nat) : Decimal :=
  let fraction := bits % Nat.pow 2 f.fractionBits
  let exponent := bits / Nat.pow 2 f.fractionBits % Nat.pow 2 f.exponentBits
  let negative := bits / Nat.pow 2 (f.fractionBits + f.exponentBits) % 2 == 1
  let bias : Int := Nat.pow 2 (f.exponentBits - 1) - 1 + f.fractionBits
  if exponent = Nat.pow 2 f.exponentBits - 1 then
    if fraction = 0 then .infinite negative else .nan
  else if exponent = 0 then
    if fraction = 0 then .finite negative 0 0
    else
      let (c, k) := shortest fraction (1 - bias) false
      .finite negative c k
  else
    let (c, k) := shortest (fraction + Nat.pow 2 f.fractionBits) (exponent - bias)
      (fraction == 0 && 1 < exponent)
    .finite negative c k

/-! ## Positional text -/

/-- The number `digits · 10 ^ scale` written out. -/
def positional (digits : Nat) (scale : Int) : String :=
  let ds := Nat.toDigits 10 digits
  if 0 ≤ scale then String.ofList (ds ++ List.replicate scale.toNat '0')
  else
    let places := (-scale).toNat
    let ds := List.replicate (places + 1 - ds.length) '0' ++ ds
    String.ofList (ds.take (ds.length - places)) ++ "." ++ String.ofList (ds.drop (ds.length - places))

/-- The written form of a decimal. -/
def text : Decimal → String
  | nan => "NaN"
  | infinite negative => if negative then "-inf" else "inf"
  | finite negative digits scale => (if negative then "-" else "") ++ positional digits scale

end Decimal

end Proximity
