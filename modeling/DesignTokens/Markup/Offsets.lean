import DesignTokens.Markup.Attribute
import DesignTokens.Text.Slice

/-! # Class attributes by byte offsets

The scan of a source text as it moves from byte offset to byte offset. Each part that it takes out
of the text is checked. -/
namespace DesignTokens.Markup.Offsets
open Text (BadSlice charAt? slice sliceFrom sliceTo utf8Length isBlank add_utf8Size_le_of_charAt?)

/-- An attribute with the byte offsets between which its value stands. -/
structure Found where
  name : String
  start : Nat
  stop : Nat
  pieces : List Piece
  deriving Repr, DecidableEq

/-- The offset of the first character from an offset on that is not blank. -/
def skipBlank (source : List Char) (offset : Nat) : Nat :=
  match _h : charAt? offset source with
  | none => offset
  | some c => if isBlank c then skipBlank source (offset + c.utf8Size) else offset
termination_by utf8Length source - offset
decreasing_by
  have hle := add_utf8Size_le_of_charAt? _h
  have hpos := c.utf8Size_pos
  omega

/-- The offset behind the brace that closes the last of some open ones, or the end of the text. -/
def skipBraces (source : List Char) (openBraces offset : Nat) : Nat :=
  match _h : charAt? offset source with
  | none => offset
  | some c =>
    let behind := offset + c.utf8Size
    if c = '\x7b' then skipBraces source (openBraces + 1) behind
    else if c = '\x7d' then
      if openBraces ≤ 1 then behind else skipBraces source (openBraces - 1) behind
    else skipBraces source openBraces behind
termination_by utf8Length source - offset
decreasing_by
  all_goals
    have hle := add_utf8Size_le_of_charAt? _h
    have hpos := c.utf8Size_pos
    omega

theorem le_skipBraces (source : List Char) (openBraces offset : Nat) :
    offset ≤ skipBraces source openBraces offset := by
  fun_induction skipBraces source openBraces offset <;> omega

/-- What has been read of a value. -/
structure Scan where
  pieces : List Piece
  /-- Where the word begins that is being read, if one is. -/
  wordStart : Option Nat
  /-- Whether an interpolation has been met in this word. -/
  dynamic : Bool
  deriving Repr, DecidableEq

namespace Scan

/-- Begins a word, unless one is being read. -/
def beginWord (s : Scan) (offset : Nat) : Scan :=
  { s with wordStart := some (s.wordStart.getD offset) }

/-- Ends the word that is being read. -/
def endWord (source : List Char) (s : Scan) (stop : Nat) : Except BadSlice Scan :=
  match s.wordStart with
  | none => .ok s
  | some start => do
    let text ← slice source start stop
    let word : Word := ⟨text, start⟩
    return ⟨s.pieces ++ [if s.dynamic then .dynamic word else .name word], none, false⟩

end Scan

/-- Whether the character that ends at an offset begins an interpolation. -/
def opensBraces (source : List Char) (q : Quoting) (c : Char) (behind : Nat) :
    Except BadSlice Bool :=
  if q.quote = '`' && c = '$' then do
    let rest ← sliceFrom source behind
    return rest.head? = some '\x7b'
  else .ok false

/-- The pieces of a value and the offset of its closing quote, unless it is not closed. -/
def scanValue (source : List Char) (q : Quoting) (s : Scan) (offset : Nat) :
    Except BadSlice (Option (List Piece × Nat)) :=
  match _h : charAt? offset source with
  | none => .ok none
  | some c =>
    let behind := offset + c.utf8Size
    if c = q.quote then do
      let s ← s.endWord source offset
      return some (s.pieces, offset)
    else if isBlank c then do
      let s ← s.endWord source offset
      scanValue source q s behind
    else
      let s := s.beginWord offset
      if q.escapes && c = '\\' then
        match charAt? behind source with
        | none => scanValue source q s behind
        | some d => scanValue source q s (behind + d.utf8Size)
      else do
        if ← opensBraces source q c behind then
          scanValue source q { s with dynamic := true } (skipBraces source 1 (behind + 1))
        else scanValue source q s behind
termination_by utf8Length source - offset
decreasing_by
  all_goals
    have hle := add_utf8Size_le_of_charAt? _h
    have hpos := c.utf8Size_pos
    have hskip := le_skipBraces source 1 (offset + c.utf8Size + 1)
    omega

/-- The quoting that the quote at an offset begins, and the offset behind it. -/
def quotingAt? (source : List Char) (escapes : Bool) (offset : Nat) : Option (Quoting × Nat) :=
  (charAt? offset source).bind fun c =>
    if isQuote c then some (⟨c, escapes || c = '`'⟩, offset + 1) else none

/-- The quoting of the value behind a name that ends at an offset, and where the value begins. -/
def openingAt (source : List Char) (offset : Nat) : Except BadSlice (Option (Quoting × Nat)) := do
  let equals := skipBlank source offset
  let rest ← sliceFrom source equals
  if rest.head? = some '=' then
    let behind := skipBlank source (equals + 1)
    if charAt? behind source = some '\x7b' then
      return quotingAt? source true (skipBlank source (behind + 1))
    else return quotingAt? source false behind
  else return none

/-- The attribute whose name begins at an offset. -/
def readAttribute (source : List Char) (name : String) (offset : Nat) :
    Except BadSlice (Option Found) := do
  match ← openingAt source (offset + name.utf8ByteSize) with
  | none => return none
  | some (q, start) =>
    let scanned ← scanValue source q ⟨[], none, false⟩ start
    return scanned.map fun (pieces, stop) => ⟨name, start, stop, pieces⟩

/-- Whether a name stands by itself. -/
def isBoundary (source : List Char) (offset length : Nat) : Except BadSlice Bool := do
  let before ← sliceTo source offset
  let behind ← sliceFrom source (offset + length)
  return !before.getLast?.any isNameChar && behind.head?.any fun c => isBlank c || c = '='

/-- The attribute at a place where "class" stands. -/
def attributeAt (source : List Char) (place : Nat) : Except BadSlice (Option Found) := do
  let rest ← sliceFrom source place
  let name := if "className".toList.isPrefixOf rest then "className" else "class"
  if ← isBoundary source place name.utf8ByteSize then readAttribute source name place
  else return none

/-- The byte offsets at which "class" stands in a text that begins at an offset. Two such places do
not overlap. -/
def placesFrom (offset : Nat) : List Char → List Nat
  | [] => []
  | c :: cs =>
    let rest := placesFrom (offset + c.utf8Size) cs
    if "class".toList.isPrefixOf (c :: cs) then offset :: rest else rest

def places (source : List Char) : List Nat := placesFrom 0 source

/-- The attributes found so far, and where the value of the last one ends. -/
structure Progress where
  resume : Nat
  found : List Found
  deriving Repr, DecidableEq

/-- Looks for an attribute at a place, unless it is inside a value that was read. -/
def Progress.step (source : List Char) (p : Progress) (place : Nat) : Except BadSlice Progress :=
  if place < p.resume then .ok p
  else do
    match ← attributeAt source place with
    | none => return p
    | some a => return ⟨a.stop, p.found ++ [a]⟩

/-- Every class attribute in its order. -/
def attributes (source : List Char) : Except BadSlice (List Found) := do
  let p ← (places source).foldlM (Progress.step source) ⟨0, []⟩
  return p.found

/-- Every class that an attribute names, in order and with repetitions. -/
def classes (source : List Char) : Except BadSlice (List Word) := do
  let found ← attributes source
  return found.flatMap fun a => a.pieces.filterMap Piece.name?

end DesignTokens.Markup.Offsets
