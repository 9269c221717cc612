/-! # Backslash escapes inside quoted text -/
namespace DesignTokens.Script.Escape

def hexDigit? (c : Char) : Option Nat :=
  if '0' ≤ c ∧ c ≤ '9' then some (c.toNat - '0'.toNat)
  else if 'a' ≤ c ∧ c ≤ 'f' then some (c.toNat - 'a'.toNat + 10)
  else if 'A' ≤ c ∧ c ≤ 'F' then some (c.toNat - 'A'.toNat + 10)
  else none

def isHexDigit (c : Char) : Bool := (hexDigit? c).isSome

/-- The number that hexadecimal digits spell. -/
def hexValue (digits : List Char) : Nat :=
  digits.foldl (fun value c => 16 * value + (hexDigit? c).getD 0) 0

/-- The number spelled by exactly `count` hexadecimal digits at the front. -/
def fixedHex? (count : Nat) (cs : List Char) : Option Nat :=
  let digits := cs.take count
  if digits.length = count ∧ digits.all isHexDigit then some (hexValue digits) else none

/-- A code point, and how many characters spell it. -/
structure Spelled where
  code : Nat
  length : Nat

/-- Any number of hexadecimal digits in braces, up to the last code point. -/
def braced? : List Char → Option Spelled
  | '\x7b' :: cs =>
    let digits := cs.takeWhile isHexDigit
    match digits, cs.drop digits.length with
    | _ :: _, '\x7d' :: _ =>
      if hexValue digits ≤ 0x10FFFF then some ⟨hexValue digits, digits.length + 2⟩ else none
    | _, _ => none
  | _ => none

def codePoint? (cs : List Char) : Option Spelled :=
  match cs with
  | '\x7b' :: _ => braced? cs
  | _ => (fixedHex? 4 cs).map fun code => ⟨code, 4⟩

def isHighSurrogate (code : Nat) : Bool := 0xD800 ≤ code && code < 0xDC00

def isLowSurrogate (code : Nat) : Bool := 0xDC00 ≤ code && code < 0xE000

/-- The code point of a surrogate pair. -/
def combine (high low : Nat) : Nat := 0x10000 + (high - 0xD800) * 0x400 + (low - 0xDC00)

/-- A second escape that spells a low surrogate. -/
def lowSurrogate? : List Char → Option Nat
  | '\\' :: 'u' :: cs => (fixedHex? 4 cs).filter isLowSurrogate
  | _ => none

/-- The character of a code point; a lone surrogate gives the replacement character. -/
def charOf (code : Nat) : Char :=
  if code.isValidChar then Char.ofNat code else '\uFFFD'

/-- The character of a Unicode escape after its letter, with the length of its spelling. -/
def unicode? (cs : List Char) : Option (Char × Nat) :=
  (codePoint? cs).map fun spelled =>
    match isHighSurrogate spelled.code, lowSurrogate? (cs.drop spelled.length) with
    | true, some low => (charOf (combine spelled.code low), spelled.length + 6)
    | _, _ => (charOf spelled.code, spelled.length)

/-- What the character after a backslash stands for, and how many of the characters that follow
belong to it. A malformed numeric escape keeps its letter, and a line end stands for nothing. -/
def value (c : Char) (cs : List Char) : List Char × Nat :=
  match c with
  | 'n' => (['\n'], 0)
  | 'r' => (['\r'], 0)
  | 't' => (['\t'], 0)
  | 'b' => (['\x08'], 0)
  | 'f' => (['\x0c'], 0)
  | 'v' => (['\x0b'], 0)
  | '0' => (['\x00'], 0)
  | 'x' =>
    match fixedHex? 2 cs with
    | some code => ([charOf code], 2)
    | none => (['x'], 0)
  | 'u' =>
    match unicode? cs with
    | some (char, length) => ([char], length)
    | none => (['u'], 0)
  | '\n' => ([], 0)
  | other => ([other], 0)

/-- The text that the body of a quoted literal stands for. -/
def decode : List Char → List Char
  | [] => []
  | ['\\'] => []
  | '\\' :: c :: cs => (value c cs).1 ++ decode (cs.drop (value c cs).2)
  | c :: cs => c :: decode cs
termination_by cs => cs.length

end DesignTokens.Script.Escape
