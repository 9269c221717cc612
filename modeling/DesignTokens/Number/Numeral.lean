import DesignTokens.Number.Shortest

/-! # The text of a number that stands for a property key or a value -/
namespace DesignTokens

namespace Decimal

/-- Positional notation, however many zeros it takes. -/
def positional (d : Decimal) : String :=
  let digits := Nat.toDigits 10 d.digits
  if d.point ≤ 0 then
    String.ofList ('0' :: '.' :: List.replicate (-d.point).toNat '0' ++ digits)
  else
    let whole := d.point.toNat
    if digits.length ≤ whole then
      String.ofList (digits ++ List.replicate (whole - digits.length) '0')
    else String.ofList (digits.take whole ++ '.' :: digits.drop whole)

end Decimal

namespace Binary64

/-- The natural number a finite number's size is equal to, if there is one. -/
def wholeSize? (x : Binary64) : Option Nat :=
  if x.units % unitsPerOne = 0 then some (x.units / unitsPerOne) else none

/-- The whole numbers of a size below this one are written with all their digits. -/
def exactLimit : Nat := Nat.pow 10 21

/-- The size of a finite number. -/
def sizeNumeral (x : Binary64) : String :=
  match x.wholeSize? with
  | some n => if n < exactLimit then toString n else x.shortest.positional
  | none => x.shortest.positional

/-- The canonical text of a number. Zero has no sign. -/
def numeral (x : Binary64) : String :=
  if x.isNaN then "NaN"
  else if x.isInfinite then if x.negative then "-Infinity" else "Infinity"
  else if x.magnitude = 0 then "0"
  else if x.negative then "-" ++ x.sizeNumeral
  else x.sizeNumeral

end Binary64
end DesignTokens
