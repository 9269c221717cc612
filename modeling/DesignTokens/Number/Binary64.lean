/-! # Double-precision numbers and correct rounding to them -/
namespace DesignTokens

/-- A double-precision number: a sign, and the other sixty-three bits of its word as a number,
exponent field above the fifty-two bits of the fraction. -/
structure Binary64 where
  negative : Bool
  magnitude : Nat
  magnitude_lt : magnitude < 1 <<< 63
  deriving Repr, DecidableEq

namespace Binary64

def ofBits (bits : UInt64) : Binary64 :=
  ⟨decide (1 <<< 63 ≤ bits.toNat), bits.toNat % (1 <<< 63), Nat.mod_lt _ (by decide)⟩

def bits (x : Binary64) : Nat := (if x.negative then 1 <<< 63 else 0) + x.magnitude

def exponentField (x : Binary64) : Nat := x.magnitude >>> 52

def fraction (x : Binary64) : Nat := x.magnitude % (1 <<< 52)

/-- The magnitude of infinity; a larger one is not a number. -/
def infinityMagnitude : Nat := 2047 <<< 52

def isInfinite (x : Binary64) : Bool := x.magnitude == infinityMagnitude

def isNaN (x : Binary64) : Bool := infinityMagnitude < x.magnitude

/-- The integer significand of a finite number. -/
def significand (x : Binary64) : Nat :=
  if x.exponentField = 0 then x.fraction else x.fraction + 1 <<< 52

/-- A finite number is its significand times two to this power, in units of the least number. -/
def shift (x : Binary64) : Nat := x.exponentField - 1

/-- The reciprocal of the least positive number. -/
def unitsPerOne : Nat := 1 <<< 1074

/-- The size of a finite number in units of the least positive one. -/
def units (x : Binary64) : Nat := x.significand <<< x.shift

/-- The quotient rounded to a natural number, a half to the even neighbour. -/
def divideHalfEven (numerator denominator : Nat) : Nat :=
  let q := numerator / denominator
  let r := numerator % denominator
  if 2 * r < denominator then q
  else if denominator < 2 * r then q + 1
  else if q % 2 = 0 then q else q + 1

/-- The magnitude nearest to a ratio: the significand of fifty-three bits is rounded, and one that
rounds up to the next power of two carries into the exponent field. -/
def magnitudeOfRatio (numerator denominator : Nat) : Nat :=
  let shift := Nat.log2 (numerator * unitsPerOne / denominator) - 52
  min infinityMagnitude
    (shift <<< 52 + divideHalfEven (numerator * unitsPerOne) (denominator <<< shift))

theorem magnitudeOfRatio_lt (numerator denominator : Nat) :
    magnitudeOfRatio numerator denominator < 1 <<< 63 :=
  Nat.lt_of_le_of_lt (Nat.min_le_left _ _) (by decide)

/-- The nearest number to a ratio of natural numbers. -/
def ofRatio (numerator denominator : Nat) : Binary64 :=
  ⟨false, magnitudeOfRatio numerator denominator, magnitudeOfRatio_lt _ _⟩

def ofNat (n : Nat) : Binary64 := ofRatio n 1

/-- The product of the sizes of two finite numbers, rounded. -/
def times (x y : Binary64) : Binary64 :=
  ofRatio (x.units * y.units) (unitsPerOne * unitsPerOne)

def zero : Binary64 := ⟨false, 0, by decide⟩

def infinity : Binary64 := ⟨false, infinityMagnitude, by decide⟩

/-- The nearest number to `digits * 10 ^ exponent`. A value with its leading digit far outside the
range is settled without computing the power. -/
def ofDecimal (digits : Nat) (exponent : Int) : Binary64 :=
  if digits = 0 then zero
  else
    let lead := (Nat.toDigits 10 digits).length + exponent
    if 310 < lead then infinity
    else if lead < -330 then zero
    else if 0 ≤ exponent then ofRatio (digits * Nat.pow 10 exponent.toNat) 1
    else ofRatio digits (Nat.pow 10 (-exponent).toNat)

end Binary64
end DesignTokens
