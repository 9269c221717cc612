import DesignTokens.Yaml.Cursor

/-! # Scalars in the text and the other tokens of YAML -/
namespace DesignTokens.Yaml

inductive ScalarStyle | plain | quoted | literal | folded
  deriving Repr, DecidableEq

inductive Token
  | version (major minor : Nat)
  | tagDirective (handle : String) (lead : String)
  | documentStart
  | documentEnd
  | blockSequenceStart
  | blockMappingStart
  | blockEnd
  | flowSequenceStart
  | flowSequenceEnd
  | flowMappingStart
  | flowMappingEnd
  | blockEntry
  | flowEntry
  | key
  | value
  | reference (name : String)
  | anchor (name : String)
  | tag (handle suffix : String)
  | scalar (style : ScalarStyle) (text : String)
  deriving Repr, DecidableEq

namespace Token

def isFlowIndicator (c : Char) : Bool := ",[]\x7b\x7d".toList.contains c

/-- The length of the part of a plain scalar up to a blank or to a character that ends it. A colon
in a collection in flow style may not stand right before an indicator. -/
def plainPartLength (inFlow : Bool) : List Char → Option Nat
  | [] => some 0
  | c :: cs =>
    if isBlank c || isLineBreak c then some 0
    else if inFlow && c = ':' && cs.head?.any (fun d => isFlowIndicator d || d = '?') then none
    else if (c = ':' && atGap cs) || (inFlow && isFlowIndicator c) then some 0
    else (plainPartLength inFlow cs).map (· + 1)

/-- What a plain scalar adds behind `text` and a gap. It ends behind the gap that follows its last
part; whether that gap holds a line break is told as well. -/
def plainFrom (inFlow : Bool) (indent : Nat) :
    (fuel : Nat) → (text : List Char) → Gap → Cursor → Option (List Char × Bool × Cursor)
  | 0, _, _, _ => none
  | fuel + 1, text, gap, c =>
    if c.atDocumentMark || c.rest.head? = some '#' then some (text, gap.broken, c)
    else do
      let length ← plainPartLength inFlow c.rest
      let more := if length = 0 then [] else gap.text ++ c.rest.take length
      let gap := if length = 0 then gap else .empty
      let behind := c.skip length
      if !atGap behind.rest || behind.rest.isEmpty then return (text ++ more, gap.broken, behind)
      let (next, after) ← Gap.read indent (behind.rest.length + 1) .empty behind
      if !inFlow && after.column < indent then return (text ++ more, next.broken, after)
      plainFrom inFlow indent fuel (text ++ more) next after

/-- The characters that a single letter behind a backslash stands for. -/
def escapedChar? (c : Char) : Option Char :=
  [('0', '\x00'), ('a', '\x07'), ('b', '\x08'), ('t', '\t'), ('\t', '\t'), ('n', '\n'),
   ('v', '\x0b'), ('f', '\x0c'), ('r', '\r'), ('e', '\x1b'), (' ', ' '), ('"', '"'), ('/', '/'),
   ('\\', '\\'), ('N', '\x85'), ('_', '\xa0'), ('L', '\u2028'), ('P', '\u2029')].lookup c

def escapeWidth? : Char → Option Nat
  | 'x' => some 2
  | 'u' => some 4
  | 'U' => some 8
  | _ => none

/-- The character of an escape behind its backslash, and the length of the spelling. -/
def escape? : List Char → Option (Char × Nat)
  | [] => none
  | c :: cs =>
    match escapedChar? c, escapeWidth? c with
    | some char, _ => some (char, 1)
    | none, none => none
    | none, some width => do
      let digits := cs.take width
      if digits.length < width then none
      let code ← Numeral.ofDigits? 16 digits
      if code.isValidChar then some (Char.ofNat code, width + 1) else none

/-- The part of a quoted scalar up to a blank or to its closing quote. It tells whether an escaped
line end follows, which is passed over. -/
def quotedPart (quote : Char) :
    (fuel : Nat) → Cursor → Option (List Char × Bool × Cursor)
  | 0, _ => none
  | fuel + 1, c =>
    match c.rest with
    | [] => some ([], false, c)
    | x :: xs =>
      if isBlank x || isLineBreak x then some ([], false, c)
      else if x = quote then
        if quote = '\'' && xs.head? = some '\'' then
          (quotedPart quote fuel (c.skip 2)).map fun (text, rest) => (quote :: text, rest)
        else some ([], false, c)
      else if quote = '"' && x = '\\' then
        if !xs.isEmpty && atLineEnd xs then some ([], true, ((c.skip 1).nextLine).2)
        else do
          let (char, length) ← escape? xs
          let (text, rest) ← quotedPart quote fuel (c.skip (length + 1))
          return (char :: text, rest)
      else (quotedPart quote fuel (c.skip 1)).map fun (text, rest) => (x :: text, rest)

/-- The rest of a quoted scalar behind `text`. -/
def quotedFrom (quote : Char) :
    (fuel : Nat) → (text : List Char) → Cursor → Option (List Char × Cursor)
  | 0, _, _ => none
  | fuel + 1, text, c => do
    if c.atDocumentMark || c.rest.isEmpty then none
    let (part, joined, behind) ← quotedPart quote (c.rest.length + 1) c
    if behind.rest.head? = some quote then return (text ++ part, behind.skip 1)
    let (gap, next) ←
      Gap.read 0 (behind.rest.length + 1) (if joined then .joined else .empty) behind
    quotedFrom quote fuel (text ++ part ++ gap.text) next

/-- The lines without text before a line of a block scalar, and the indentation of the scalar if it
is known by then. -/
def blankLines (parentIndent : Int) :
    (fuel : Nat) → (indent : Option Nat) → (widest : Nat) → (breaks : List Char) → Cursor →
      Option (List Char × Nat × Cursor)
  | 0, _, _, _, _ => none
  | fuel + 1, indent, widest, breaks, c =>
    let inside (column : Nat) := indent.all fun n => column < n
    let limit := (indent.map (· - c.column)).getD c.rest.length
    let c := c.skip ((c.rest.take limit).takeWhile (· = ' ')).length
    let widest := max widest c.column
    if inside c.column && c.rest.head? = some '\t' then none
    else if c.atBreak then
      let (text, next) := c.nextLine
      blankLines parentIndent fuel indent widest (breaks ++ text) next
    else
      some (breaks, indent.getD (max widest (max (parentIndent + 1).toNat 1)), c)

/-- The lines of a block scalar behind `text`. The break at the end of the last line is `lineEnd`,
and `breaks` are those of the lines without text behind it. -/
def blockLines (isLiteral : Bool) (indent : Nat) :
    (fuel : Nat) → (text lineEnd breaks : List Char) → (afterBlank : Bool) → Cursor →
      Option (List Char × List Char × List Char × Cursor)
  | 0, _, _, _, _, _ => none
  | fuel + 1, text, lineEnd, breaks, afterBlank, c =>
    if c.column ≠ indent || c.rest.isEmpty then some (text, lineEnd, breaks, c)
    else do
      let blank := c.rest.head?.any isBlank
      let gap :=
        if !isLiteral && lineEnd = ['\n'] && !afterBlank && !blank then
          if breaks.isEmpty then [' '] else breaks
        else lineEnd ++ breaks
      let line := c.rest.takeWhile fun x => !isLineBreak x
      let (lineEnd, next) := (c.skip line.length).nextLine
      let (breaks, _, next) ←
        blankLines 0 (next.rest.length + 1) (some indent) 0 [] next
      blockLines isLiteral indent fuel (text ++ gap ++ line) lineEnd breaks blank next

/-- What becomes of the line breaks at the end of a block scalar. -/
inductive Chomping | strip | clip | keep
  deriving Repr, DecidableEq

/-- The marks behind the indicator of a block scalar, in either order. -/
def blockMarks (cs : List Char) : Option (Chomping × Option Nat × Nat) :=
  let chomping? (c : Char) : Option Chomping :=
    if c = '+' then some .keep else if c = '-' then some .strip else none
  let digit? (c : Char) : Option Nat := if c.isDigit then some (Numeral.digitValue c) else none
  match cs with
  | a :: b :: _ =>
    match chomping? a, digit? a, chomping? b, digit? b with
    | some chomping, _, _, some n => if n = 0 then none else some (chomping, some n, 2)
    | some chomping, _, _, none => some (chomping, none, 1)
    | none, some n, some chomping, _ => if n = 0 then none else some (chomping, some n, 2)
    | none, some n, none, _ => if n = 0 then none else some (.clip, some n, 1)
    | none, none, _, _ => some (.clip, none, 0)
  | [a] =>
    match chomping? a, digit? a with
    | some chomping, _ => some (chomping, none, 1)
    | none, some n => if n = 0 then none else some (.clip, some n, 1)
    | none, none => some (.clip, none, 0)
  | [] => some (.clip, none, 0)

/-- A block scalar behind its indicator, inside a collection of some indentation. -/
def blockScalar (isLiteral : Bool) (parentIndent : Int) (c : Cursor) :
    Option (List Char × Cursor) := do
  let (chomping, increment, length) ← blockMarks c.rest
  let c := (c.skip length).skipWhile isBlank
  let c := if c.rest.head? = some '#' then c.skipWhile (fun x => !isLineBreak x) else c
  if !atLineEnd c.rest then none
  let c := c.nextLine.2
  let indent := increment.map fun n => (max parentIndent 0).toNat + n
  let (breaks, indent, c) ← blankLines parentIndent (c.rest.length + 1) indent 0 [] c
  let (text, lineEnd, breaks, c) ←
    blockLines isLiteral indent (c.rest.length + 1) [] [] breaks false c
  match chomping with
  | .strip => return (text, c)
  | .clip => return (text ++ lineEnd, c)
  | .keep => return (text ++ lineEnd ++ breaks, c)

/-- The name of an anchor or of a reference behind its indicator. -/
def anchorName (c : Cursor) : Option (String × Cursor) :=
  let name := c.rest.takeWhile isWordChar
  let behind := c.skip name.length
  if name.isEmpty then none
  else if atGap behind.rest || behind.rest.head?.any ("?:,]\x7d%@`".toList.contains ·) then
    some (String.ofList name, behind)
  else none

def isUriChar (inBrackets : Bool) (c : Char) : Bool :=
  isWordChar c || ";/?:@&=+$.%!~*'()".toList.contains c
    || (inBrackets && ",[]".toList.contains c)

/-- The number of bytes in the UTF-8 form of a character with this first byte. -/
def sequenceLength? (lead : Nat) : Option Nat :=
  if lead < 0x80 then some 1
  else if lead < 0xC0 then none
  else if lead < 0xE0 then some 2
  else if lead < 0xF0 then some 3
  else if lead < 0xF8 then some 4
  else none

/-- The bytes of a tag, one as each character. A percent sign and two digits spell a byte; those of
one character follow one another, and `pending` of them are still to come. -/
def bytes? : (pending : Nat) → List Char → Option (List Char)
  | 0, [] => some []
  | _ + 1, [] => none
  | pending, '%' :: a :: b :: cs => do
    let byte := 16 * (← Numeral.digitOf? 16 a) + (← Numeral.digitOf? 16 b)
    let pending ←
      match pending with
      | 0 => (sequenceLength? byte).map (· - 1)
      | n + 1 => if byte / 0x40 = 2 then some n else none
    return Char.ofNat byte :: (← bytes? pending cs)
  | 0, c :: cs => if c = '%' then none else (bytes? 0 cs).map (c :: ·)
  | _ + 1, _ => none

/-- The bytes of a tag before a zero byte, and the text behind the tag. -/
def uri (inBrackets canBeEmpty : Bool) (c : Cursor) : Option (List Char × Cursor) :=
  let text := c.rest.takeWhile (isUriChar inBrackets)
  if text.isEmpty && !canBeEmpty then none
  else (bytes? 0 text).map fun bytes => (bytes.takeWhile (· ≠ '\x00'), c.skip text.length)

/-- A handle: an exclamation mark, or a word between two of them. -/
def handle (inDirective : Bool) (c : Cursor) : Option (List Char × Cursor) :=
  match c.rest with
  | '!' :: cs =>
    let name := cs.takeWhile isWordChar
    if (cs.drop name.length).head? = some '!' then
      some ('!' :: (name ++ ['!']), c.skip (name.length + 2))
    else if inDirective && !name.isEmpty then none
    else some ('!' :: name, c.skip (name.length + 1))
  | _ => none

/-- The tag at an exclamation mark. -/
def tagAt (inFlow : Bool) (c : Cursor) : Option (Token × Cursor) := do
  let (token, behind) ←
    match c.rest with
    | '!' :: '<' :: _ => do
      let (text, behind) ← uri true false (c.skip 2)
      if behind.rest.head? ≠ some '>' then none
      some (Token.tag "" (String.ofList text), behind.skip 1)
    | _ => do
      let (h, behind) ← handle false c
      if 1 < h.length && h.getLast? = some '!' then do
        let (text, behind) ← uri false false behind
        some (Token.tag (String.ofList h) (String.ofList text), behind)
      else do
        let (text, behind) ← uri false true behind
        let suffix := h.drop 1 ++ text
        some
          (if suffix.isEmpty then Token.tag "" "!" else Token.tag "!" (String.ofList suffix),
            behind)
  if (inFlow && behind.rest.head? = some ',') || atGap behind.rest then some (token, behind)
  else none

/-- The end of the line of a directive, with a comment or without. -/
def directiveEnd (c : Cursor) : Option Cursor :=
  let c := c.skipWhile isBlank
  let c := if c.rest.head? = some '#' then c.skipWhile (fun x => !isLineBreak x) else c
  if atLineEnd c.rest then some c.nextLine.2 else none

def versionNumber (c : Cursor) : Option (Nat × Cursor) :=
  let digits := c.rest.takeWhile Char.isDigit
  if digits.isEmpty || 9 < digits.length then none
  else some (Numeral.decimalValue digits, c.skip digits.length)

/-- The directive at a percent sign. -/
def directive (c : Cursor) : Option (Token × Cursor) := do
  let name := (c.rest.drop 1).takeWhile isWordChar
  let c := c.skip (name.length + 1)
  if !atGap c.rest then none
  let c := c.skipWhile isBlank
  match String.ofList name with
  | "YAML" => do
    let (major, c) ← versionNumber c
    if c.rest.head? ≠ some '.' then none
    let (minor, c) ← versionNumber (c.skip 1)
    return (.version major minor, ← directiveEnd c)
  | "TAG" => do
    let (h, c) ← handle true c
    if !c.rest.head?.any isBlank then none
    let (lead, c) ← uri true false (c.skipWhile isBlank)
    if !atGap c.rest then none
    return (.tagDirective (String.ofList h) (String.ofList lead), ← directiveEnd c)
  | _ => none

end Token
end DesignTokens.Yaml
