import DesignTokens.Declared
import DesignTokens.Markup.Attribute
import DesignTokens.Options
import DesignTokens.Suggestion
import DesignTokens.Utility.Standard

/-! # Checking classes against the tokens in effect -/
namespace DesignTokens
open Markup (Word Piece Segment)
open Text (Position)
open Utility (Entry Table Variants)

namespace Validation

/-- Why a class is refused. -/
inductive Reason
  | arbitraryValue
  | unknownColor
  | unknownTextSizeOrColor
  | unknownBorderWidthOrColor
  | unknownSpacing
  | unknownSize
  deriving Repr, DecidableEq

namespace Reason

def name : Reason → String
  | arbitraryValue => "arbitrary_value"
  | unknownColor => "unknown_color"
  | unknownTextSizeOrColor => "unknown_text_size_or_color"
  | unknownBorderWidthOrColor => "unknown_border_width_or_color"
  | unknownSpacing => "unknown_spacing"
  | unknownSize => "unknown_size"

def expected : Reason → String
  | arbitraryValue => "a design token"
  | unknownColor => "a color"
  | unknownTextSizeOrColor => "a text size or a color"
  | unknownBorderWidthOrColor => "a border width or a color"
  | unknownSpacing => "a spacing step"
  | unknownSize => "a size keyword, a fraction or a spacing step"

end Reason

/-- What may follow a stem. -/
inductive Rule | color | textSizeOrColor | borderWidthOrColor | spacing | size | borderSide
  deriving Repr, DecidableEq

def textSizes : List String :=
  ["xs", "sm", "base", "lg", "xl", "2xl", "3xl", "4xl", "5xl", "6xl", "7xl", "8xl", "9xl"]

def borderWidths : List String := ["0", "2", "4", "8"]

def sizeKeywords : List String :=
  ["auto", "full", "screen", "svw", "svh", "lvw", "lvh", "dvw", "dvh", "min", "max", "fit",
   "none", "prose", "px", "xs", "sm", "md", "lg", "xl", "2xl", "3xl", "4xl", "5xl", "6xl",
   "7xl", "screen-sm", "screen-md", "screen-lg", "screen-xl", "screen-2xl"]

def isDigits (cs : List Char) : Bool := !cs.isEmpty && cs.all Char.isDigit

/-- The text without an opacity, which is a slash with digits at its end. -/
def stripOpacity (cs : List Char) : List Char :=
  let tail := (cs.reverse.takeWhile (· ≠ '/')).reverse
  if tail.length < cs.length && isDigits tail then cs.take (cs.length - tail.length - 1) else cs

/-- Digits on either side of the first slash. -/
def isFraction (cs : List Char) : Bool :=
  let numerator := cs.takeWhile (· ≠ '/')
  match cs.drop numerator.length with
  | _ :: denominator => isDigits numerator && isDigits denominator
  | [] => false

namespace Rule

/-- The rule for what follows an entry; the other entries may be followed by anything. -/
def ofEntry? (e : Entry) : Option Rule :=
  if e.isStem then
    match e.category with
    | .colors =>
      if e.name = "text-" then some textSizeOrColor
      else if e.name = "border-" then some borderWidthOrColor
      else some color
    | .spacing => some spacing
    | .layout =>
      if e.name ∈ Utility.sizingStems then some size
      else if e.name ∈ Utility.borderSideStems then some borderSide
      else none
    | .typography => none
    | .decoration => none
  else none

/-- The family whose tokens are looked up. -/
def family : Rule → Family
  | color | textSizeOrColor | borderWidthOrColor => .colors
  | spacing | size | borderSide => .spacing

def reason : Rule → Reason
  | color => .unknownColor
  | textSizeOrColor => .unknownTextSizeOrColor
  | borderWidthOrColor => .unknownBorderWidthOrColor
  | spacing | borderSide => .unknownSpacing
  | size => .unknownSize

/-- The name of the token that a value asks for. -/
def target (rule : Rule) (value : List Char) : List Char :=
  match rule.family with
  | .colors => stripOpacity value
  | .spacing => value

/-- The values that are allowed besides the tokens. -/
def allows (rule : Rule) (value : List Char) : Bool :=
  match rule with
  | textSizeOrColor => textSizes.contains (String.ofList value)
  | borderWidthOrColor => borderWidths.contains (String.ofList value)
  | size => sizeKeywords.contains (String.ofList value) || isFraction value
  | color | spacing | borderSide => false

/-- Whether a value is allowed or names a token in effect. -/
def accepts (rule : Rule) (tokens : Families) (value : List Char) : Bool :=
  rule.allows value
    || (tokens.get rule.family).contains (String.ofList (rule.target value))

end Rule

/-- What is wrong with a class. -/
structure Finding where
  value : String
  reason : Reason
  suggestions : List String
  deriving Repr, DecidableEq

end Validation

open Validation

/-- The tokens in effect, the known utilities, and how classes are checked against them. -/
structure Validator where
  tokens : Families
  table : Table
  maxSuggestions : Nat
  stripVariants : Bool

namespace Validator

def ofOptions (tokens : Families) (options : Options) : Validator :=
  ⟨tokens, Table.standard, options.maxSuggestions, options.stripVariants⟩

def standard (tokens : Families) : Validator := ofOptions tokens Options.standard

def split (v : Validator) (text : List Char) : Variants :=
  if v.stripVariants then Variants.split text else Variants.whole text

/-- The classes that could stand for one whose value is refused. -/
def suggestions (v : Validator) (lead : List Char) (e : Entry) (rule : Rule)
    (value : List Char) : List String :=
  (Suggestion.nearest (rule.target value) (v.tokens.get rule.family).keys v.maxSuggestions).map
    fun candidate => String.ofList lead ++ e.name ++ candidate

/-- What is wrong with a class, if anything is. A class that no entry fits is none of ours. -/
def examine (v : Validator) (text : List Char) : Option Finding :=
  if text.contains '[' && text.contains ']' then
    some ⟨String.ofList text, .arbitraryValue, []⟩
  else
    let variants := v.split text
    match v.table.find? variants.utility with
    | none => none
    | some e =>
      match Rule.ofEntry? e with
      | none => none
      | some rule =>
        let value := e.remainder variants.utility
        if rule.accepts v.tokens value then none
        else
          some ⟨String.ofList value, rule.reason, v.suggestions variants.lead e rule value⟩

def accepts (v : Validator) (text : List Char) : Bool := (v.examine text).isNone

end Validator

namespace Validation

/-- A class that was refused, and where it stands. -/
structure Rejection where
  token : String
  finding : Finding
  position : Position
  deriving Repr, DecidableEq

namespace Rejection

def quote (text : String) : String := "\"" ++ text ++ "\""

/-- The closest classes as a question, if there are any. -/
def question (suggestions : List String) : String :=
  if suggestions.isEmpty then ""
  else " Did you mean " ++ ", ".intercalate (suggestions.map quote) ++ "?"

def complaint (r : Rejection) : String :=
  match r.finding.reason with
  | .arbitraryValue =>
    ": arbitrary values are not allowed, use " ++ r.finding.reason.expected ++ "."
  | reason => ": " ++ quote r.finding.value ++ " is not " ++ reason.expected ++ "."

def message (r : Rejection) : String :=
  "Invalid class " ++ quote r.token ++ r.complaint ++ question r.finding.suggestions

end Rejection

/-- The text without the classes that were refused, and a report on each of these. -/
structure Result where
  code : String
  rejections : List Rejection
  deriving Repr, DecidableEq

namespace Result

def isValid (r : Result) : Bool := r.rejections.isEmpty

def errors (r : Result) : List String := r.rejections.map Rejection.message

def toJson (r : Result) : Json.Value :=
  .object
    [("isValid", .bool r.isValid), ("code", .string r.code),
     ("errors", Json.Value.ofStrings r.errors)]

end Result
end Validation

namespace Validator

/-- The report on a word of a text, if it is refused. -/
def reject? (v : Validator) (text : List Char) (word : Word) : Option Rejection :=
  (v.examine word.text).map fun finding =>
    ⟨word.value, finding, Position.ofOffset text word.start⟩

def joined (texts : List (List Char)) : List Char := [' '].intercalate texts

/-- Checks the words of a class list. -/
def checkClasses (v : Validator) (classes : String) : Validation.Result :=
  let text := classes.toList
  let words := Markup.words text 0
  let kept := words.filter fun word => v.accepts word.text
  ⟨String.ofList (joined (kept.map Word.text)), words.filterMap (v.reject? text)⟩

/-- Whether a piece stays in its value. What is unknown is not checked. -/
def keeps (v : Validator) (piece : Piece) : Bool :=
  match piece.name? with
  | some word => v.accepts word.text
  | none => true

/-- A stretch of a source text without the refused classes. A value without any is not touched. -/
def cleaned (v : Validator) (segment : Segment) : List Char :=
  match segment with
  | .plain text => text
  | .value found =>
    if found.pieces.all v.keeps then found.value
    else joined ((found.pieces.filter v.keeps).map fun piece => piece.word.text)

/-- Checks every class list of a source text. -/
def checkSource (v : Validator) (source : String) : Validation.Result :=
  let text := source.toList
  ⟨String.ofList ((Markup.segments text).flatMap v.cleaned),
    (Markup.classes text).filterMap (v.reject? text)⟩

end Validator
end DesignTokens
