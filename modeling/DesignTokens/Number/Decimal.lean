import DesignTokens.Number.Binary64

/-! # Reading decimal numerals -/
namespace DesignTokens.Numeral

def digitValue (c : Char) : Nat := c.toNat - '0'.toNat

def decimalValue (digits : List Char) : Nat :=
  digits.foldl (fun value c => 10 * value + digitValue c) 0

/-- The exponent of a numeral: nothing at all, or a mark, an optional sign and some digits. -/
def exponent? : List Char → Option Int
  | [] => some 0
  | mark :: cs =>
    if mark = 'e' ∨ mark = 'E' then
      let (sign, digits) : Int × List Char :=
        match cs with
        | '+' :: ds => (1, ds)
        | '-' :: ds => (-1, ds)
        | ds => (1, ds)
      if digits.isEmpty || !digits.all Char.isDigit then none
      else some (sign * decimalValue digits)
    else none

/-- The digits on either side of the point of a numeral, and what follows them. -/
def mantissa (cs : List Char) : List Char × List Char × List Char :=
  let whole := cs.takeWhile Char.isDigit
  match cs.drop whole.length with
  | '.' :: rest =>
    let fraction := rest.takeWhile Char.isDigit
    (whole, fraction, rest.drop fraction.length)
  | rest => (whole, [], rest)

/-- The number nearest to an unsigned decimal numeral. Digits may be missing on one side of the
point, but not on both. -/
def read? (cs : List Char) : Option Binary64 :=
  let (whole, fraction, rest) := mantissa cs
  if whole.isEmpty && fraction.isEmpty then none
  else
    (exponent? rest).map fun exponent =>
      Binary64.ofDecimal (decimalValue (whole ++ fraction)) (exponent - fraction.length)

/-- The value of a digit of some radix up to thirty-six. -/
def digitOf? (radix : Nat) (c : Char) : Option Nat :=
  let value? :=
    if c.isDigit then some (digitValue c)
    else if c.isLower then some (c.toNat - 'a'.toNat + 10)
    else if c.isUpper then some (c.toNat - 'A'.toNat + 10)
    else none
  value?.filter (· < radix)

/-- The natural number some digits spell. -/
def ofDigits? (radix : Nat) (digits : List Char) : Option Nat :=
  if digits.isEmpty then none
  else digits.foldl (fun value? c => do return radix * (← value?) + (← digitOf? radix c)) (some 0)

end DesignTokens.Numeral
