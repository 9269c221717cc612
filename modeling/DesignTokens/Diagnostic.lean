import DesignTokens.Extraction

/-! # Errors and their wording -/
namespace DesignTokens
open Text (Span)

/-- Whether a configuration could not be reached, or was reached and could not be understood. -/
inductive ErrorClass | unavailable | malformed
  deriving Repr, DecidableEq

/-- What keeps the tokens of a project from being established. -/
inductive ConfigError
  | notFound (root : String) (candidates : List String)
  | unreadable (path : String)
  | faulty (file : String) (fault : ExtractionFault)
  deriving Repr, DecidableEq

/-- A remark on a part of a file. -/
structure Label where
  text : String
  offset : Nat
  length : Nat
  deriving Repr, DecidableEq

def Label.on (span : Span) (text : String) : Label := ⟨text, span.start, span.length⟩

namespace Script

def LiteralKind.name : LiteralKind → String
  | .blockComment => "block comment"
  | .string => "string literal"
  | .template => "template literal"
  | .regularExpression => "regular expression"

/-- What is expected where a closing delimiter does not fit. -/
def expectation : Option Delimiter → String
  | some delimiter => "'" ++ String.singleton delimiter.closing ++ "'"
  | none => "no closing delimiter"

namespace Fault

def message : Fault → String
  | unterminatedLiteral literal _ => "Unterminated " ++ literal.name
  | mismatchedDelimiter _ _ => "Mismatched closing delimiter"
  | unclosedDelimiter _ => "Unclosed delimiter"
  | nestingTooDeep _ => "Object literals nested too deeply"

def code : Fault → String
  | unterminatedLiteral _ _ => "parser::unterminated_literal"
  | mismatchedDelimiter _ _ => "parser::mismatched_delimiter"
  | unclosedDelimiter _ => "parser::unclosed_delimiter"
  | nestingTooDeep _ => "parser::nesting_too_deep"

def help : Fault → String
  | unterminatedLiteral literal _ => "The file ended before this " ++ literal.name ++ " was closed."
  | mismatchedDelimiter _ _ =>
    "Every '\x7b', '[' and '(' must be closed by its matching delimiter."
  | unclosedDelimiter _ => "The file ended while this delimiter was still open."
  | nestingTooDeep _ => "Object nesting is limited to " ++ toString maxNesting ++ " levels."

def label : Fault → Label
  | unterminatedLiteral literal span => .on span ("This " ++ literal.name ++ " is never closed")
  | mismatchedDelimiter fitting span => .on span ("Expected " ++ expectation fitting ++ " here")
  | unclosedDelimiter span => .on span "Opened here"
  | nestingTooDeep start => ⟨"Nesting limit reached here", start, 1⟩

end Fault
end Script

namespace DepthFault

def message (f : DepthFault) : String :=
  "Token group under '" ++ ".".intercalate f.path ++ "' is nested deeper than "
    ++ toString f.limit ++ " levels"

def label (f : DepthFault) : Label := .on f.span "This object exceeds the depth limit"

end DepthFault

namespace ExtractionFault

def message : ExtractionFault → String
  | script fault => fault.message
  | depth fault => fault.message

def code : ExtractionFault → String
  | script fault => fault.code
  | depth _ => "traversal::depth_exceeded"

def help : ExtractionFault → String
  | script fault => fault.help
  | depth _ => "Flatten the token definitions or raise `max_depth` in the options."

def label : ExtractionFault → Label
  | script fault => fault.label
  | depth fault => fault.label

end ExtractionFault

namespace ConfigError

def errorClass : ConfigError → ErrorClass
  | notFound .. | unreadable _ => .unavailable
  | faulty .. => .malformed

def message : ConfigError → String
  | notFound root _ => "No Tailwind configuration found in " ++ root
  | unreadable path => "Failed to read " ++ path
  | faulty _ fault => fault.message

def code : ConfigError → String
  | notFound .. => "truth::config_not_found"
  | unreadable _ => "truth::read_failure"
  | faulty _ fault => fault.code

def help? : ConfigError → Option String
  | notFound _ candidates =>
    some ("Looked for: " ++ ", ".intercalate candidates
      ++ ". Create one of these files at the project root.")
  | unreadable _ => none
  | faulty _ fault => some fault.help

def labels : ConfigError → List Label
  | faulty _ fault => [fault.label]
  | _ => []

/-- The file that the labels refer to. -/
def file? : ConfigError → Option String
  | faulty file _ => some file
  | _ => none

end ConfigError
end DesignTokens
