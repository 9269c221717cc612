import DesignTokens.Number.Decimal
import DesignTokens.Script.Token

/-! # Numeric literals -/
namespace DesignTokens.Script.NumericLiteral

def radix? : Char → Option Nat
  | 'x' | 'X' => some 16
  | 'o' | 'O' => some 8
  | 'b' | 'B' => some 2
  | _ => none

def isDigitOrLetter (c : Char) : Bool := c.isAlphanum || c = '_'

/-- The text of a literal without the underscores between its digits. -/
def withoutSeparators (cs : List Char) : List Char := cs.filter (· ≠ '_')

/-- A number, or the first character of the literal when its text is none. -/
def kindOf (first : Char) (value? : Option Binary64) : TokenKind :=
  match value? with
  | some value => .number value
  | none => .punct first

/-- The digits after a radix mark; a number has to fit in sixty-four bits. -/
def ofRadix? (radix : Nat) (digits : List Char) : Option Binary64 :=
  ((Numeral.ofDigits? radix (withoutSeparators digits)).filter (· < UInt64.size)).map Binary64.ofNat

/-- How far a decimal literal goes on: digits, one point before the exponent, and one exponent
mark with its sign. -/
def decimalLength (pointSeen markSeen : Bool) : List Char → Nat
  | [] => 0
  | [c] =>
    if c.isDigit || c = '_' || (c = '.' && !pointSeen && !markSeen)
      || ((c = 'e' || c = 'E') && !markSeen) then 1
    else 0
  | c :: d :: cs =>
    if c.isDigit || c = '_' then decimalLength pointSeen markSeen (d :: cs) + 1
    else if c = '.' && !pointSeen && !markSeen then decimalLength true markSeen (d :: cs) + 1
    else if (c = 'e' || c = 'E') && !markSeen then
      if d = '+' || d = '-' then decimalLength pointSeen true cs + 2
      else decimalLength pointSeen true (d :: cs) + 1
    else 0

/-- The letter that marks an integer of any size. -/
def suffixLength : List Char → Nat
  | 'n' :: _ => 1
  | _ => 0

def readDecimal (first : Char) (cs : List Char) : TokenKind × Nat :=
  let length := decimalLength (first = '.') false cs
  (kindOf first (Numeral.read? (withoutSeparators (first :: cs.take length))),
    length + suffixLength (cs.drop length))

/-- The token of the literal that begins with `first`, and how many more characters it takes. -/
def read (first : Char) (cs : List Char) : TokenKind × Nat :=
  match first, cs with
  | '0', mark :: rest =>
    match radix? mark with
    | some radix =>
      let digits := rest.takeWhile isDigitOrLetter
      (kindOf first (ofRadix? radix digits), digits.length + 1)
    | none => readDecimal first cs
  | _, _ => readDecimal first cs

end DesignTokens.Script.NumericLiteral
