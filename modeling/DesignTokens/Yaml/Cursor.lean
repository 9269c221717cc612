import DesignTokens.Text.Position
import DesignTokens.Yaml.Scalar

/-! # Places in a YAML text -/
namespace DesignTokens.Yaml

/-- The unread text, and where it begins. Columns count characters from zero, and the index counts
the bytes of the text read so far. -/
structure Cursor where
  rest : List Char
  line : Nat
  column : Nat
  index : Nat
  deriving Repr

def isBlank (c : Char) : Bool := c = ' ' || c = '\t'

/-- Whether a text is at its end, at a blank or at a line break. -/
def atGap (cs : List Char) : Bool := cs.head?.all fun c => isBlank c || isLineBreak c

def atLineEnd (cs : List Char) : Bool := cs.head?.all isLineBreak

def isWordChar (c : Char) : Bool := c.isAlphanum || c = '_' || c = '-'

namespace Cursor

def start (text : List Char) : Cursor := ⟨text, 0, 0, 0⟩

/-- Passes over some characters of a line. -/
def skip (c : Cursor) (n : Nat) : Cursor :=
  ⟨c.rest.drop n, c.line, c.column + n, c.index + Text.utf8Length (c.rest.take n)⟩

def skipWhile (c : Cursor) (p : Char → Bool) : Cursor := c.skip (c.rest.takeWhile p).length

/-- Passes over a line break. What it stands for is a line feed, except for the two separators. -/
def nextLine (c : Cursor) : List Char × Cursor :=
  match c.rest with
  | '\r' :: '\n' :: rest => (['\n'], ⟨rest, c.line + 1, 0, c.index + 2⟩)
  | b :: rest =>
    let kept := if b = '\u2028' || b = '\u2029' then b else '\n'
    ([kept], ⟨rest, c.line + 1, 0, c.index + b.utf8Size⟩)
  | [] => ([], c)

def atBreak (c : Cursor) : Bool := c.rest.head?.any isLineBreak

/-- Whether a line begins with one of the marks between documents. -/
def atMark (c : Cursor) (mark : String) : Bool :=
  c.column = 0 && mark.toList.isPrefixOf c.rest && atGap (c.rest.drop 3)

def atDocumentMark (c : Cursor) : Bool := c.atMark "---" || c.atMark "..."

end Cursor

/-- What is read between two parts of a scalar. -/
structure Gap where
  blanks : List Char
  firstBreak : List Char
  laterBreaks : List Char
  broken : Bool

namespace Gap

def empty : Gap := ⟨[], [], [], false⟩

/-- A gap behind a line end that stands for nothing. -/
def joined : Gap := ⟨[], [], [], true⟩

/-- What a gap stands for: a single line feed is folded into a space. -/
def text (g : Gap) : List Char :=
  if g.broken then
    if g.firstBreak = ['\n'] then if g.laterBreaks.isEmpty then [' '] else g.laterBreaks
    else g.firstBreak ++ g.laterBreaks
  else g.blanks

/-- Reads a gap. Tabs are refused in front of the column `indent` of a new line. -/
def read (indent : Nat) : (fuel : Nat) → Gap → Cursor → Option (Gap × Cursor)
  | 0, _, _ => none
  | fuel + 1, g, c =>
    match c.rest with
    | [] => some (g, c)
    | b :: _ =>
      if isBlank b then
        if g.broken && c.column < indent && b = '\t' then none
        else
          read indent fuel (if g.broken then g else { g with blanks := g.blanks ++ [b] }) (c.skip 1)
      else if isLineBreak b then
        let (text, next) := c.nextLine
        if g.broken then read indent fuel { g with laterBreaks := g.laterBreaks ++ text } next
        else read indent fuel ⟨[], text, [], true⟩ next
      else some (g, c)

end Gap
end DesignTokens.Yaml
