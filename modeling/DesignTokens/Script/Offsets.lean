import DesignTokens.Script.Lexer

/-! # Tokens by byte offsets

The lexer as it takes one character after the other and adds its size to an offset. What looks ahead
leaves the offset where it is, and what was seen is taken afterwards by count. Nothing bounds a loop
but the steps that it is granted: once they are used up there is no outcome, so that it has to be
proved that they suffice. A step is a turn of a loop. -/
namespace DesignTokens.Script.Offsets

/-- The characters that are left, and the byte offset of the first of them. -/
structure Input where
  rest : List Char
  offset : Nat
  deriving Repr, DecidableEq

namespace Input

/-- The next character, and the input behind it. -/
def next? (s : Input) : Option (Char × Input) :=
  match s.rest with
  | [] => none
  | c :: rest => some (c, ⟨rest, s.offset + c.utf8Size⟩)

def peek? (s : Input) : Option Char := s.rest.head?

def peekSecond? (s : Input) : Option Char := s.rest[1]?

/-- The input behind the next character. The end is never passed. -/
def advance (s : Input) : Input :=
  match s.next? with
  | none => s
  | some (_, behind) => behind

def advanceBy : Nat → Input → Input
  | 0, s => s
  | count + 1, s => advanceBy count s.advance

end Input

/-- Adds characters to a text as long as they pass a test. -/
def readWhile (p : Char → Bool) (steps : Nat) (text : String) (s : Input) :
    Option (String × Input) :=
  match steps with
  | 0 => none
  | steps + 1 =>
    match s.peek? with
    | none => some (text, s)
    | some c => if p c then readWhile p steps (text.push c) s.advance else some (text, s)

def readWhitespace (steps : Nat) (s : Input) : Option (TokenKind × Input) := do
  let (_, s) ← readWhile Text.isBlank steps "" s
  return (.whitespace, s)

def trimmed (text : String) : String := String.ofList (Text.trim text.toList)

/-- A comment after its first slash. -/
def readLineComment (steps : Nat) (s : Input) : Option (TokenKind × Input) := do
  let (text, s) ← readWhile (· ≠ '\n') steps "" s.advance
  return (.comment (trimmed text), s)

def readToCommentEnd (steps : Nat) (text : String) (s : Input) : Option (TokenKind × Input) :=
  match steps with
  | 0 => none
  | steps + 1 =>
    match s.next? with
    | none => some (.unterminated .blockComment, s)
    | some (c, s) =>
      if c = '*' ∧ s.peek? = some '/' then some (.comment (trimmed text), s.advance)
      else readToCommentEnd steps (text.push c) s

def readBlockComment (steps : Nat) (s : Input) : Option (TokenKind × Input) :=
  readToCommentEnd steps "" s.advance

/-- Exactly `count` hexadecimal digits, or nothing. -/
def readHex (count : Nat) (s : Input) : Option Nat × Input :=
  match Escape.fixedHex? count s.rest with
  | none => (none, s)
  | some code => (some code, s.advanceBy count)

def readBraced (s : Input) : Option Nat × Input :=
  let digits := (s.rest.drop 1).takeWhile Escape.isHexDigit
  let code := Escape.hexValue digits
  if s.rest[digits.length + 1]? ≠ some '\x7d' ∨ digits = [] then (none, s)
  else if code ≤ 0x10FFFF then (some code, s.advanceBy (digits.length + 2))
  else (none, s)

/-- The character of a Unicode escape after its letter. -/
def readUnicode (s : Input) : Option Char × Input :=
  match if s.peek? = some '\x7b' then readBraced s else readHex 4 s with
  | (none, s) => (none, s)
  | (some code, s) =>
    match Escape.isHighSurrogate code, Escape.lowSurrogate? s.rest with
    | true, some low => (some (Escape.charOf (Escape.combine code low)), s.advanceBy 6)
    | _, _ => (some (Escape.charOf code), s)

/-- Adds what an escape stands for to a text. -/
def readEscape (text : String) (c : Char) (s : Input) : String × Input :=
  match c with
  | 'n' => (text.push '\n', s)
  | 'r' => (text.push '\r', s)
  | 't' => (text.push '\t', s)
  | 'b' => (text.push '\x08', s)
  | 'f' => (text.push '\x0c', s)
  | 'v' => (text.push '\x0b', s)
  | '0' => (text.push '\x00', s)
  | 'x' =>
    match readHex 2 s with
    | (some code, s) => (text.push (Escape.charOf code), s)
    | (none, s) => (text.push 'x', s)
  | 'u' =>
    match readUnicode s with
    | (some char, s) => (text.push char, s)
    | (none, s) => (text.push 'u', s)
  | '\n' => (text, s)
  | other => (text.push other, s)

def readQuoted (steps : Nat) (quote : Char) (text : String) (s : Input) :
    Option (TokenKind × Input) :=
  match steps with
  | 0 => none
  | steps + 1 =>
    match s.next? with
    | none => some (.unterminated .string, s)
    | some (c, s) =>
      if c = quote then some (.string text, s)
      else if c = '\\' then
        match s.next? with
        | none => some (.unterminated .string, s)
        | some (escaped, s) =>
          let (text, s) := readEscape text escaped s
          readQuoted steps quote text s
      else if c = '\n' then some (.unterminated .string, s)
      else readQuoted steps quote (text.push c) s

mutual

def readTemplate (steps : Nat) (text : String) (interpolated : Bool) (s : Input) :
    Option (TokenKind × Input) :=
  match steps with
  | 0 => none
  | steps + 1 =>
    match s.next? with
    | none => some (.unterminated .template, s)
    | some (c, s) =>
      if c = '`' then some (.template (if interpolated then none else some text), s)
      else if c = '\\' then
        match s.next? with
        | none => some (.unterminated .template, s)
        | some (escaped, s) =>
          let (text, s) := readEscape text escaped s
          readTemplate steps text interpolated s
      else if c = '$' ∧ s.peek? = some '\x7b' then do
        let (closed, s) ← skipInterpolation steps 1 s.advance
        if closed then readTemplate steps text true s else some (.unterminated .template, s)
      else readTemplate steps (text.push c) interpolated s

/-- Goes behind the brace that closes the outermost of some open ones, if there is one. -/
def skipInterpolation (steps openBraces : Nat) (s : Input) : Option (Bool × Input) :=
  match steps with
  | 0 => none
  | steps + 1 =>
    match s.next? with
    | none => some (false, s)
    | some (c, s) =>
      if c = '\x7b' then skipInterpolation steps (openBraces + 1) s
      else if c = '\x7d' then
        if openBraces - 1 = 0 then some (true, s) else skipInterpolation steps (openBraces - 1) s
      else if c = '"' ∨ c = '\'' then do
        let (kind, s) ← readQuoted steps c "" s
        if kind.isUnterminated then some (false, s) else skipInterpolation steps openBraces s
      else if c = '`' then do
        let (kind, s) ← readTemplate steps "" false s
        if kind.isUnterminated then some (false, s) else skipInterpolation steps openBraces s
      else skipInterpolation steps openBraces s

end

def readRegex (steps : Nat) (body : String) (inClass : Bool) (s : Input) :
    Option (TokenKind × Input) :=
  match steps with
  | 0 => none
  | steps + 1 =>
    match s.next? with
    | none => some (.unterminated .regularExpression, s)
    | some (c, s) =>
      if c = '\\' then
        match s.next? with
        | none => some (.unterminated .regularExpression, s)
        | some (escaped, s) => readRegex steps ((body.push c).push escaped) inClass s
      else if c = '[' then readRegex steps (body.push c) true s
      else if c = ']' then readRegex steps (body.push c) false s
      else if c = '/' ∧ inClass = false then do
        let (_, s) ← readWhile Char.isAlpha steps "" s
        return (.regex body, s)
      else if c = '\n' then some (.unterminated .regularExpression, s)
      else readRegex steps (body.push c) inClass s

def readIdentifier (steps : Nat) (first : Char) (s : Input) : Option (TokenKind × Input) := do
  let (name, s) ← readWhile isIdentifierPart steps (String.singleton first) s
  return (.identifier name, s)

def readRadix (steps : Nat) (first : Char) (radix : Nat) (s : Input) :
    Option (TokenKind × Input) := do
  let (digits, s) ← readWhile NumericLiteral.isDigitOrLetter steps "" s.advance
  return (NumericLiteral.kindOf first (NumericLiteral.ofRadix? radix digits.toList), s)

/-- Digits, one point before the exponent, and one exponent mark with its sign. -/
def readDigits (steps : Nat) (pointSeen markSeen : Bool) (text : String) (s : Input) :
    Option (String × Input) :=
  match steps with
  | 0 => none
  | steps + 1 =>
    match s.peek? with
    | none => some (text, s)
    | some c =>
      let behind := s.advance
      if c.isDigit || c = '_' then readDigits steps pointSeen markSeen (text.push c) behind
      else if c = '.' && !pointSeen && !markSeen then
        readDigits steps true markSeen (text.push c) behind
      else if (c = 'e' || c = 'E') && !markSeen then
        match behind.peek? with
        | none => readDigits steps pointSeen true (text.push c) behind
        | some sign =>
          if sign = '+' || sign = '-' then
            readDigits steps pointSeen true ((text.push c).push sign) behind.advance
          else readDigits steps pointSeen true (text.push c) behind
      else some (text, s)

def readDecimal (steps : Nat) (first : Char) (s : Input) : Option (TokenKind × Input) := do
  let (text, s) ← readDigits steps (first = '.') false (String.singleton first) s
  let behind := if s.peek? = some 'n' then s.advance else s
  return (NumericLiteral.kindOf first
    (Numeral.read? (NumericLiteral.withoutSeparators text.toList)), behind)

def readNumber (steps : Nat) (first : Char) (s : Input) : Option (TokenKind × Input) :=
  match if first = '0' then s.peek?.bind NumericLiteral.radix? else none with
  | some radix => readRadix steps first radix s
  | none => readDecimal steps first s

/-- The token that begins with a character, and the input behind it. -/
def read (steps : Nat) (regexAllowed : Bool) (c : Char) (s : Input) :
    Option (TokenKind × Input) :=
  match c with
  | '\x7b' => some (.opener .brace, s)
  | '\x7d' => some (.closer .brace, s)
  | '[' => some (.opener .bracket, s)
  | ']' => some (.closer .bracket, s)
  | '(' => some (.opener .parenthesis, s)
  | ')' => some (.closer .parenthesis, s)
  | ',' => some (.comma, s)
  | ':' => some (.colon, s)
  | ';' => some (.semicolon, s)
  | '=' => if s.peek? = some '>' then some (.arrow, s.advance) else some (.punct '=', s)
  | '.' =>
    if s.peek?.any Char.isDigit then readNumber steps '.' s
    else if s.peek? = some '.' ∧ s.peekSecond? = some '.' then
      some (.spread, s.advance.advance)
    else some (.dot, s)
  | '/' =>
    if s.peek? = some '/' then readLineComment steps s
    else if s.peek? = some '*' then readBlockComment steps s
    else if regexAllowed then readRegex steps "" false s
    else some (.punct '/', s)
  | '"' => readQuoted steps '"' "" s
  | '\'' => readQuoted steps '\'' "" s
  | '`' => readTemplate steps "" false s
  | c =>
    if Text.isBlank c then readWhitespace steps s
    else if isIdentifierStart c then readIdentifier steps c s
    else if c.isDigit then readNumber steps c s
    else some (.punct c, s)

/-- The token at the input, from its offset to the one behind it. -/
def nextToken (steps : Nat) (regexAllowed : Bool) (s : Input) : Option (Token × Input) :=
  match s.next? with
  | none => some (⟨.endOfText, ⟨s.offset, s.offset⟩⟩, s)
  | some (c, behind) => do
    let (kind, behind) ← read steps regexAllowed c behind
    return (⟨kind, ⟨s.offset, behind.offset⟩⟩, behind)

def tokensFrom (steps : Nat) (rule : SlashRule) (last : Option TokenKind) (s : Input) :
    Option (List Token) :=
  match steps with
  | 0 => none
  | steps + 1 => do
    let (t, behind) ← nextToken steps (rule.allowsRegex last) s
    if t.kind = .endOfText then return [t]
    else
      let others ← tokensFrom steps rule (lastAfter last t.kind) behind
      return t :: others

/-- Every token of a text, if the steps suffice for it and for each of its loops. -/
def lexWithin (steps : Nat) (rule : SlashRule) (source : String) : Option (List Token) :=
  tokensFrom steps rule none ⟨source.toList, 0⟩

/-- Every token of a text. A step more than there are characters suffices. -/
def lex (rule : SlashRule) (source : String) : Option (List Token) :=
  lexWithin (source.length + 1) rule source

end DesignTokens.Script.Offsets
