import DesignTokens.Number.Binary64

/-! # The fewest decimal digits that read back as the same number -/
namespace DesignTokens

/-- A positive decimal `0.d₁d₂… × 10 ^ point`. -/
structure Decimal where
  digits : Nat
  point : Int
  deriving Repr, DecidableEq

namespace Binary64

/-- The interval of the reals that round to a positive number, all in quarters of
`2 ^ shift` units: the number itself, and the two ends. -/
structure Interval where
  low : Nat
  middle : Nat
  high : Nat
  closed : Bool

/-- Below a power of two the neighbours are half as far apart. An end belongs to the interval
when the significand is even. -/
def interval (x : Binary64) : Interval :=
  let m := x.significand
  let below := if m = 1 <<< 52 ∧ 1 < x.exponentField then 1 else 2
  ⟨4 * m - below, 4 * m, 4 * m + 2, m % 2 = 0⟩

/-- The decimal point of a positive ratio: the number of digits of its whole part, or minus the
number of zeros that follow the point. -/
def decimalPoint (numerator denominator : Nat) : Int :=
  if denominator ≤ numerator then (Nat.toDigits 10 (numerator / denominator)).length
  else
    match (List.range 400).find? fun k => denominator ≤ numerator * Nat.pow 10 (k + 1) with
    | some k => -(k : Int)
    | none => 0

/-- The better of the two neighbours of the number on the grid of `count` digits, when one of them
lies in the interval. Of two the nearer is taken, and of two equally near ones the upper. -/
def onGrid (interval : Interval) (scale denominator : Nat) (point : Int) (count : Nat) :
    Option Nat :=
  let up : Nat := Nat.pow 10 ((count : Int) - point).toNat
  let down : Nat := Nat.pow 10 (point - (count : Int)).toNat
  let value := interval.middle * scale * up
  let step := denominator * down
  let lower := value / step
  let upper := lower + 1
  let inside (d : Nat) : Bool :=
    let place := d * step
    let low := interval.low * scale * up
    let high := interval.high * scale * up
    (low < place && place < high) || (interval.closed && (place == low || place == high))
  if value % step = 0 then some lower
  else
    match inside lower, inside upper with
    | true, true => some (if 2 * (value % step) < step then lower else upper)
    | true, false => some lower
    | false, true => some upper
    | false, false => none

/-- The shortest decimal that rounds to a positive finite number, and the nearest to it of those. -/
def shortest (x : Binary64) : Decimal :=
  let scale := 1 <<< x.shift
  let denominator := 4 * unitsPerOne
  let point := decimalPoint (4 * x.significand * scale) denominator
  let found := (List.range 17).findSome? fun k =>
    (onGrid x.interval scale denominator point (k + 1)).map fun digits => (k + 1, digits)
  match found with
  | some (count, digits) =>
    -- a digit that carries over the leading place moves the point
    if digits = Nat.pow 10 count then ⟨1, point + 1⟩ else ⟨digits, point⟩
  | none => ⟨0, 0⟩

end Binary64
end DesignTokens
