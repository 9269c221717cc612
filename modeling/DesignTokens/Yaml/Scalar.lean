import DesignTokens.Number.Decimal

/-! # Scalars and what they are read as -/
namespace DesignTokens.Yaml

def isLineBreak (c : Char) : Bool :=
  c = '\n' || c = '\r' || c = '\x85' || c = '\u2028' || c = '\u2029'

def isNull (text : String) : Bool := ["", "null", "Null", "NULL", "~"].contains text

def bool? (text : String) : Option Bool :=
  if ["true", "True", "TRUE"].contains text then some true
  else if ["false", "False", "FALSE"].contains text then some false
  else none

def isSign (c : Char) : Bool := c = '+' || c = '-'

def withoutSign (cs : List Char) : List Char :=
  match cs with
  | c :: rest => if isSign c then rest else cs
  | [] => []

/-- Digits behind a leading zero, with a sign or without: they spell no number. -/
def isZeroPadded (cs : List Char) : Bool :=
  match withoutSign cs with
  | '0' :: d :: rest => (d :: rest).all Char.isDigit
  | _ => false

def withoutPlus (cs : List Char) : List Char :=
  match cs with
  | '+' :: rest => rest
  | cs => cs

/-- The size of an integer without sign, in decimal or behind the mark of another radix. -/
def size? (cs : List Char) : Option Nat :=
  match cs with
  | '0' :: 'x' :: digits => Numeral.ofDigits? 16 digits
  | '0' :: 'o' :: digits => Numeral.ofDigits? 8 digits
  | '0' :: 'b' :: digits => Numeral.ofDigits? 2 digits
  | digits => Numeral.ofDigits? 10 digits

/-- The natural number that a scalar spells; a plus sign may precede it. -/
def natural? (text : String) : Option Nat :=
  if isZeroPadded text.toList then none else size? (withoutPlus text.toList)

/-- Whether a scalar spells an integer of at most a hundred and twenty-eight bits. -/
def isInteger (text : String) : Bool :=
  match text.toList with
  | '-' :: digits =>
    !isZeroPadded text.toList && (size? digits).any fun n => n ≤ 1 <<< 127
  | _ => (natural? text).any fun n => n < 1 <<< 128

def infinities : List String := [".inf", ".Inf", ".INF"]

/-- Whether a scalar spells a number with a point or an exponent, or one of the special values. -/
def isFloat (text : String) : Bool :=
  let unsigned := String.ofList (withoutSign text.toList)
  if isZeroPadded text.toList then false
  else if infinities.contains unsigned then true
  else if [".nan", ".NaN", ".NAN"].contains text then true
  else (Numeral.read? unsigned.toList).any fun value => !value.isInfinite

/-- Whether a plain scalar of this text is read as something else than a string, or could be taken
for a number. -/
def isAmbiguous (text : String) : Bool :=
  isNull text || (bool? text).isSome || isInteger text || isFloat text
    || isZeroPadded text.toList

end DesignTokens.Yaml
