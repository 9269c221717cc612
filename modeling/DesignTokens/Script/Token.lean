import DesignTokens.Number.Binary64
import DesignTokens.Text.Position

/-! # Tokens of a configuration script -/
namespace DesignTokens.Script
open Text (Span)

inductive Delimiter | brace | bracket | parenthesis
  deriving Repr, DecidableEq

namespace Delimiter

def opening : Delimiter → Char
  | brace => '\x7b'
  | bracket => '['
  | parenthesis => '('

def closing : Delimiter → Char
  | brace => '\x7d'
  | bracket => ']'
  | parenthesis => ')'

end Delimiter

/-- The literals and comments that a text can end in the middle of. -/
inductive LiteralKind | blockComment | string | template | regularExpression
  deriving Repr, DecidableEq

inductive TokenKind
  | whitespace
  | comment (text : String)
  | unterminated (literal : LiteralKind)
  | identifier (name : String)
  | string (value : String)
  | number (value : Binary64)
  /-- The text is absent when the literal holds an interpolation. -/
  | template (value : Option String)
  | regex (body : String)
  | opener (delimiter : Delimiter)
  | closer (delimiter : Delimiter)
  | comma
  | colon
  | semicolon
  | dot
  | spread
  | arrow
  | punct (char : Char)
  | endOfText
  deriving Repr, DecidableEq

namespace TokenKind

/-- Whitespace and comments separate tokens and mean nothing else. -/
def isTrivia : TokenKind → Bool
  | whitespace | comment _ => true
  | _ => false

def isUnterminated : TokenKind → Bool
  | unterminated _ => true
  | _ => false

/-- A token that ends an operand: the slash after it divides. -/
def endsOperand : TokenKind → Bool
  | identifier _ | string _ | number _ | template _ | regex _ | closer _ => true
  | _ => false

end TokenKind

structure Token where
  kind : TokenKind
  span : Span
  deriving Repr, DecidableEq

end DesignTokens.Script
