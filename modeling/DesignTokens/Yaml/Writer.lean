import DesignTokens.Text.Position
import DesignTokens.Yaml.Scalar

/-! # Writing YAML texts in block style -/
namespace DesignTokens.Yaml

/-- What is written: texts under keys. -/
inductive Tree
  | text (value : String)
  | mapping (entries : List (String × Tree))
  deriving Repr

def isPrintable (c : Char) : Bool :=
  let n := c.toNat
  n = 10 || (32 ≤ n && n ≤ 126) || (160 ≤ n && n ≠ 0xFEFF && n ≠ 0xFFFE && n ≠ 0xFFFF)

def isBlankOrBreak (c : Char) : Bool := c = ' ' || c = '\t' || isLineBreak c

def startsBlank (cs : List Char) : Bool := cs.head?.all isBlankOrBreak

/-- Characters that begin something else than a plain scalar. -/
def isIndicator (c : Char) : Bool := "#,[]\x7b\x7d&*!|>'\"%@`".toList.contains c

/-- Whether the first character begins something else than a plain scalar. -/
def startsIndicator : List Char → Bool
  | [] => false
  | c :: cs =>
    isIndicator c || ((c = '?' || c = ':' || c = '-') && startsBlank cs)
      || ("---".toList.isPrefixOf (c :: cs)) || ("...".toList.isPrefixOf (c :: cs))

/-- Whether a colon before a blank or a number sign behind one ends a plain scalar. The character
before the text is `previous`. -/
def endsPlain (previous : Char) : List Char → Bool
  | [] => false
  | c :: cs =>
    (c = ':' && startsBlank cs) || (c = '#' && isBlankOrBreak previous) || endsPlain c cs

def endsPlainBehindFirst : List Char → Bool
  | [] => false
  | c :: cs => endsPlain c cs

/-- Whether some character of the first class stands right before one of the second. -/
def hasPair (first second : Char → Bool) : List Char → Bool
  | c :: d :: cs => (first c && second d) || hasPair first second (d :: cs)
  | _ => false

/-- How the lines and the ends of a text restrict the ways to write it. -/
structure Look where
  multiline : Bool
  plainAllowed : Bool
  singleAllowed : Bool
  literalAllowed : Bool
  deriving Repr, DecidableEq

def isSpace (c : Char) : Bool := c = ' '

def Look.of (cs : List Char) : Look :=
  let multiline := cs.any isLineBreak
  let special := cs.any (fun c => !isPrintable c) || hasPair isSpace isLineBreak cs
  let breakSpace := hasPair isLineBreak isSpace cs
  let edge (c? : Option Char) := c?.any fun c => isSpace c || isLineBreak c
  { multiline
    plainAllowed :=
      !(multiline || special || breakSpace || edge cs.head? || edge cs.getLast?
        || startsIndicator cs || endsPlainBehindFirst cs)
    singleAllowed := !(special || breakSpace)
    literalAllowed := !cs.isEmpty && !special && !(cs.getLast?.any isSpace) }

inductive Style | plain | singleQuoted | doubleQuoted | literal
  deriving Repr, DecidableEq

/-- A text with a line feed is a literal block, one that could be read as something else is quoted,
and any other one is plain; what does not allow its style takes the next more general one. -/
def Style.of (text : String) : Style :=
  let look := Look.of text.toList
  if text.toList.contains '\n' then
    if look.literalAllowed then literal else doubleQuoted
  else if look.plainAllowed && !isAmbiguous text then plain
  else if look.singleAllowed then singleQuoted
  else doubleQuoted

def spaces (n : Nat) : List Char := List.replicate n ' '

def hexDigits (width n : Nat) : List Char :=
  let digits := (Nat.toDigits 16 n).map Char.toUpper
  List.replicate (width - digits.length) '0' ++ digits

/-- The letter of an escape of its own. -/
def escapeLetter? (c : Char) : Option Char :=
  [('\x00', '0'), ('\x07', 'a'), ('\x08', 'b'), ('\t', 't'), ('\n', 'n'), ('\x0b', 'v'),
   ('\x0c', 'f'), ('\r', 'r'), ('\x1b', 'e'), ('"', '"'), ('\\', '\\'), ('\x85', 'N'),
   ('\u2028', 'L'), ('\u2029', 'P')].lookup c

def doubleQuotedChar (c : Char) : List Char :=
  match escapeLetter? c with
  | some letter => ['\\', letter]
  | none =>
    if isPrintable c then [c]
    else if c.toNat < 0x100 then '\\' :: 'x' :: hexDigits 2 c.toNat
    else if c.toNat < 0x10000 then '\\' :: 'u' :: hexDigits 4 c.toNat
    else '\\' :: 'U' :: hexDigits 8 c.toNat

/-- Single-quoted text behind its opening quote. A line behind a break other than a line feed is
indented. -/
def singleQuotedFrom (indent : Nat) (lineStart : Bool) : List Char → List Char
  | [] => (if lineStart then spaces indent else []) ++ ['\'']
  | c :: cs =>
    if isLineBreak c then c :: singleQuotedFrom indent true cs
    else
      (if lineStart then spaces indent else [])
        ++ (if c = '\'' then ['\'', '\''] else [c]) ++ singleQuotedFrom indent false cs

/-- The lines of a literal block; empty ones are not indented. -/
def literalLines (indent : Nat) (lineStart : Bool) : List Char → List Char
  | [] => []
  | c :: cs =>
    if isLineBreak c then c :: literalLines indent true cs
    else (if lineStart then spaces indent else []) ++ c :: literalLines indent false cs

/-- The marks of a literal block: the indentation, where it could not be told from the first line,
and what becomes of the line breaks at the end. -/
def literalMarks (cs : List Char) : List Char :=
  let indentation := if cs.head?.any (fun c => isSpace c || isLineBreak c) then ['2'] else []
  let chomping :=
    match cs.reverse with
    | [] => ['-']
    | [c] => if isLineBreak c then ['+'] else ['-']
    | c :: d :: _ => if !isLineBreak c then ['-'] else if isLineBreak d then ['+'] else []
  indentation ++ chomping

/-- A text inside a mapping of some indentation. -/
def spell (indent : Nat) (text : String) : List Char :=
  let cs := text.toList
  match Style.of text with
  | .plain => cs
  | .singleQuoted => '\'' :: singleQuotedFrom (indent + 2) false cs
  | .doubleQuoted => '"' :: (cs.flatMap doubleQuotedChar ++ ['"'])
  | .literal => '|' :: (literalMarks cs ++ '\n' :: literalLines (indent + 2) true cs)

/-- Ends a line, unless a line break has ended it. -/
def endLine (cs : List Char) : List Char :=
  if cs.getLast?.any isLineBreak then cs else cs ++ ['\n']

/-- A key that stands on a line with its value. -/
def isSimpleKey (key : String) : Bool :=
  !(Look.of key.toList).multiline && key.utf8ByteSize ≤ 128

/-- A key with the colon behind it. -/
def keyLead (indent : Nat) (key : String) : List Char :=
  if isSimpleKey key then spaces indent ++ spell indent key ++ [':']
  else
    endLine (spaces indent ++ '?' :: ' ' :: spell indent key) ++ spaces indent ++ [':']

mutual

/-- The lines of a value behind its colon. -/
def valueLines (indent : Nat) : Tree → List Char
  | .text value => endLine (' ' :: spell indent value)
  | .mapping [] => " \x7b\x7d\n".toList
  | .mapping entries => '\n' :: entryLines (indent + 2) entries

def entryLines (indent : Nat) : List (String × Tree) → List Char
  | [] => []
  | (key, value) :: rest =>
    keyLead indent key ++ valueLines indent value ++ entryLines indent rest

end

/-- The text of a document. -/
def write : Tree → List Char
  | .text value => endLine (spell 0 value)
  | .mapping [] => "\x7b\x7d\n".toList
  | .mapping entries => entryLines 0 entries

end DesignTokens.Yaml
