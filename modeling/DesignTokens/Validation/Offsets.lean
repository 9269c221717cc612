import DesignTokens.Markup.Offsets
import DesignTokens.Validation

/-! # Checking a source text by byte offsets

The check of a source text as it moves from byte offset to byte offset. Each part that it takes out
of the text or out of a class is checked. -/
namespace DesignTokens
open Markup (Piece)
open Markup.Offsets (Found)
open Text (BadSlice Position slice sliceFrom sliceTo)
open Utility (Entry Variants)
open Validation (Finding Rejection Rule)

namespace Utility.Offsets

/-- The offset behind the last colon outside square brackets, in a text that begins at an offset;
`stop` if there is none. -/
def colonStop (stop openBrackets offset : Nat) : List Char → Nat
  | [] => stop
  | c :: cs =>
    let inside :=
      if c = '[' then openBrackets + 1 else if c = ']' then openBrackets - 1 else openBrackets
    let stop := if c = ':' ∧ openBrackets = 0 then offset + 1 else stop
    colonStop stop inside (offset + c.utf8Size) cs

def cut (text : List Char) (stop : Nat) : Except BadSlice Variants := do
  let lead ← sliceTo text stop
  let utility ← sliceFrom text stop
  return ⟨lead, utility⟩

def split (text : List Char) : Except BadSlice Variants := do
  let stop := colonStop 0 0 0 text
  let behind ← sliceFrom text stop
  if behind.head? = some '!' then cut text (stop + 1) else cut text stop

def remainder (e : Entry) (utility : List Char) : Except BadSlice (List Char) :=
  if e.isStem then sliceFrom utility e.name.utf8ByteSize else .ok []

end Utility.Offsets

namespace Validation.Offsets

def split (v : Validator) (text : List Char) : Except BadSlice Variants :=
  if v.stripVariants then Utility.Offsets.split text else .ok (Variants.whole text)

/-- What is wrong with a class, if anything is. -/
def examine (v : Validator) (text : List Char) : Except BadSlice (Option Finding) :=
  if text.contains '[' && text.contains ']' then
    .ok (some ⟨String.ofList text, .arbitraryValue, []⟩)
  else do
    let variants ← split v text
    match v.table.find? variants.utility with
    | none => return none
    | some e =>
      let value ← Utility.Offsets.remainder e variants.utility
      return (Rule.ofEntry? e).bind fun rule =>
        if rule.accepts v.tokens value then none
        else some ⟨String.ofList value, rule.reason, v.suggestions variants.lead e rule value⟩

/-- What is kept of a value, and the reports on what is not. -/
structure Kept where
  texts : List (List Char)
  rejections : List Rejection
  deriving Repr, DecidableEq

/-- Keeps a piece or reports on it. What is unknown is kept. -/
def Kept.step (v : Validator) (source : List Char) (k : Kept) (p : Piece) : Except BadSlice Kept :=
  match p with
  | .dynamic word => .ok { k with texts := k.texts ++ [word.text] }
  | .name word => do
    match ← examine v word.text with
    | none => return { k with texts := k.texts ++ [word.text] }
    | some finding =>
      let rejection : Rejection := ⟨word.value, finding, Position.ofOffset source word.start⟩
      return { k with rejections := k.rejections ++ [rejection] }

/-- A source text as far as it has been written anew. -/
structure Copy where
  code : List Char
  /-- The offset up to which the source text is done. -/
  copied : Nat
  rejections : List Rejection
  deriving Repr, DecidableEq

/-- Writes the text up to a value and what is kept of the value, if something of it is refused. -/
def Copy.step (v : Validator) (source : List Char) (s : Copy) (a : Found) :
    Except BadSlice Copy := do
  let kept ← a.pieces.foldlM (Kept.step v source) ⟨[], []⟩
  if kept.rejections.isEmpty then return s
  else
    let front ← slice source s.copied a.start
    return ⟨s.code ++ front ++ Validator.joined kept.texts, a.stop, s.rejections ++ kept.rejections⟩

/-- Checks every class list of a source text. -/
def checkSource (v : Validator) (source : String) : Except BadSlice Validation.Result := do
  let text := source.toList
  let found ← Markup.Offsets.attributes text
  let s ← found.foldlM (Copy.step v text) ⟨[], 0, []⟩
  let rest ← sliceFrom text s.copied
  return ⟨String.ofList (s.code ++ rest), s.rejections⟩

end Validation.Offsets
end DesignTokens
