import DesignTokens.Script.Token

/-! # Expressions recovered from a script -/
namespace DesignTokens.Script
open Text (Span)

mutual

/-- An expression with its place in the text. -/
inductive Expr
  | object (span : Span) (members : List Member)
  | array (span : Span) (items : List Expr)
  | string (span : Span) (value : String)
  /-- A template literal without interpolation. -/
  | template (span : Span) (value : String)
  | number (span : Span) (value : Binary64)
  /-- An expression of unknown value, with the object literals found inside it. -/
  | dynamic (span : Span) (found : List Expr)

inductive Member
  /-- A property; the key is absent when it is computed. -/
  | pair (key : Option String) (value : Expr)
  | spread (value : Expr)

end

deriving instance Repr for Expr, Member

namespace Expr

def span : Expr → Span
  | object span _ | array span _ | string span _ | template span _ | number span _
  | dynamic span _ => span

end Expr

namespace Member

def value : Member → Expr
  | pair _ value | spread value => value

end Member
end DesignTokens.Script
