import DesignTokens.Script.Lexer
import DesignTokens.Script.Nest
import DesignTokens.Script.Parser

/-! # Finding the object literals of a script -/
namespace DesignTokens.Script

/-- The tokens that mean something to a reader. -/
def significant (ts : List Token) : List Token :=
  ts.filter fun t => !t.kind.isTrivia && t.kind ≠ .endOfText

/-- The first token that the text ends in the middle of. -/
def unterminated? : List Token → Option Fault
  | [] => none
  | ⟨.unterminated literal, span⟩ :: _ => some (.unterminatedLiteral literal span)
  | _ :: ts => unterminated? ts

/-- The tokens of a script all of whose literals and delimiters are closed. -/
def tokens (source : String) : Except Fault (List Token) :=
  let tokens := significant (lex .byContext source)
  match unterminated? tokens with
  | some fault => .error fault
  | none =>
    match Nest.ofTokens tokens with
    | .error fault => .error fault
    | .ok _ => .ok tokens

/-- The outermost object literals of a script, in their order. -/
def document (source : String) : Except Fault (List Expr) :=
  match tokens source with
  | .error fault => .error fault
  | .ok tokens =>
    match Parser.roots tokens with
    | .ok roots => .ok roots
    | .error start => .error (.nestingTooDeep start)

end DesignTokens.Script
