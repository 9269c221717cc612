import DesignTokens.Number.Decimal

/-! # The range of the numbers in a JSON text

A numeral is not rounded as a whole. Its leading digits and a power of ten are rounded each by itself,
and so is their product, which may leave the range although the nearest number to the numeral is
finite. -/
namespace DesignTokens.Json

/-- A whole number times a power of ten. -/
structure Scaled where
  digits : Nat
  exponent : Int
  deriving Repr, DecidableEq

/-- The digits that a word of sixty-four bits can take on behind a value, and those left over. -/
def fit (value : Nat) : List Char → Nat × List Char
  | [] => (value, [])
  | d :: ds =>
    let next := 10 * value + Numeral.digitValue d
    if next < UInt64.size then fit next ds else (value, d :: ds)

namespace Scaled

/-- What a numeral without sign is taken for. Digits left over count as zeros in front of the point,
and not at all behind it. -/
def ofNumeral (text : List Char) : Scaled :=
  let (whole, fraction, rest) := Numeral.mantissa text
  let (value, wholeRest) := fit 0 whole
  let (value, fractionRest) := fit value fraction
  let places : Int := wholeRest.length - (fraction.length - fractionRest.length : Nat)
  ⟨value, places + (Numeral.exponent? rest).getD 0⟩

/-- The greatest power of ten in range. -/
def exponentLimit : Int := 308

/-- Whether there is no finite number for the product. A negative power never leads out of range. -/
def isOutOfRange (s : Scaled) : Bool :=
  s.digits ≠ 0 && 0 ≤ s.exponent
    && (exponentLimit < s.exponent
      || ((Binary64.ofNat s.digits).times (Binary64.ofDecimal 1 s.exponent)).isInfinite)

end Scaled

/-- A numeral without its sign. -/
def unsigned : List Char → List Char
  | '-' :: cs => cs
  | cs => cs

/-- Whether there is no finite number for a numeral. -/
def outOfRange (text : List Char) : Bool := (Scaled.ofNumeral (unsigned text)).isOutOfRange

end DesignTokens.Json
