import DesignTokens.Script.Escape
import DesignTokens.Script.Extent
import DesignTokens.Script.NumericLiteral
import DesignTokens.Text.Blank

/-! # Cutting a script into tokens -/
namespace DesignTokens.Script
open Text (Span utf8Length isBlank isLetter isLetterOrNumeric)

def isIdentifierStart (c : Char) : Bool := isLetter c || c = '_' || c = '$'

def isIdentifierPart (c : Char) : Bool := isLetterOrNumeric c || c = '_' || c = '$'

namespace Lexer

def readLineComment (cs : List Char) : TokenKind × Nat :=
  let text := cs.takeWhile (· ≠ '\n')
  (.comment (String.ofList (Text.trim text)), text.length)

def readBlockComment (cs : List Char) : TokenKind × Nat :=
  let extent := Extent.ofBlockComment cs
  (if extent.closed then .comment (String.ofList (Text.trim (cs.take (extent.length - 2))))
    else .unterminated .blockComment, extent.length)

def readRegex (cs : List Char) : TokenKind × Nat :=
  let extent := Extent.ofRegex false cs
  if extent.closed then
    (.regex (String.ofList (cs.take (extent.length - 1))),
      extent.length + ((cs.drop extent.length).takeWhile Char.isAlpha).length)
  else (.unterminated .regularExpression, extent.length)

/-- A slash opens a comment, or a regular expression where an operand may begin, or divides. -/
def readSlash (regexAllowed : Bool) (cs : List Char) : TokenKind × Nat :=
  match cs with
  | '/' :: rest => ((readLineComment rest).1, (readLineComment rest).2 + 1)
  | '*' :: rest => ((readBlockComment rest).1, (readBlockComment rest).2 + 1)
  | _ => if regexAllowed then readRegex cs else (.punct '/', 0)

def readQuoted (quote : Char) (cs : List Char) : TokenKind × Nat :=
  let extent := Extent.ofQuoted quote cs
  (if extent.closed then .string (String.ofList (Escape.decode (cs.take (extent.length - 1))))
    else .unterminated .string, extent.length)

/-- The static text of a template without interpolations. -/
def templateText (body : List Char) : Option String :=
  if Extent.interpolates body then none else some (String.ofList (Escape.decode body))

def readTemplate (cs : List Char) : TokenKind × Nat :=
  let extent := Extent.ofTemplate cs
  (if extent.closed then .template (templateText (cs.take (extent.length - 1)))
    else .unterminated .template, extent.length)

def readIdentifier (first : Char) (cs : List Char) : TokenKind × Nat :=
  let tail := cs.takeWhile isIdentifierPart
  (.identifier (String.ofList (first :: tail)), tail.length)

def readDot (cs : List Char) : TokenKind × Nat :=
  match cs with
  | '.' :: '.' :: _ => (.spread, 2)
  | c :: _ => if c.isDigit then NumericLiteral.read '.' cs else (.dot, 0)
  | [] => (.dot, 0)

/-- The token that begins with `c`, and how many of the characters after it belong to it. -/
def read (regexAllowed : Bool) (c : Char) (cs : List Char) : TokenKind × Nat :=
  match c with
  | '\x7b' => (.opener .brace, 0)
  | '\x7d' => (.closer .brace, 0)
  | '[' => (.opener .bracket, 0)
  | ']' => (.closer .bracket, 0)
  | '(' => (.opener .parenthesis, 0)
  | ')' => (.closer .parenthesis, 0)
  | ',' => (.comma, 0)
  | ':' => (.colon, 0)
  | ';' => (.semicolon, 0)
  | '=' =>
    match cs with
    | '>' :: _ => (.arrow, 1)
    | _ => (.punct '=', 0)
  | '.' => readDot cs
  | '/' => readSlash regexAllowed cs
  | '"' => readQuoted '"' cs
  | '\'' => readQuoted '\'' cs
  | '`' => readTemplate cs
  | c =>
    if isBlank c then (.whitespace, (cs.takeWhile isBlank).length)
    else if isIdentifierStart c then readIdentifier c cs
    else if c.isDigit then NumericLiteral.read c cs
    else (.punct c, 0)

end Lexer

/-- How a slash that opens no comment is read: by the token before it, or always as the start of
a regular expression. -/
inductive SlashRule | byContext | alwaysRegex
  deriving Repr, DecidableEq

namespace SlashRule

/-- Whether a regular expression may follow the last token that was not trivia. -/
def allowsRegex (rule : SlashRule) (last : Option TokenKind) : Bool :=
  match rule, last with
  | byContext, some kind => !kind.endsOperand
  | _, _ => true

end SlashRule

/-- The last token that was not trivia, once `kind` was read. -/
def lastAfter (last : Option TokenKind) (kind : TokenKind) : Option TokenKind :=
  if kind.isTrivia then last else some kind

/-- The tokens of a text from a byte offset on. The last one is the empty token at its end. -/
def lexFrom (rule : SlashRule) (last : Option TokenKind) (start : Nat) : List Char → List Token
  | [] => [⟨.endOfText, ⟨start, start⟩⟩]
  | c :: cs =>
    let (kind, length) := Lexer.read (rule.allowsRegex last) c cs
    let stop := start + utf8Length (c :: cs.take length)
    ⟨kind, ⟨start, stop⟩⟩ :: lexFrom rule (lastAfter last kind) stop (cs.drop length)
termination_by cs => cs.length

/-- Every token of a text, trivia included. -/
def lex (rule : SlashRule) (source : String) : List Token := lexFrom rule none 0 source.toList

end DesignTokens.Script
