import DesignTokens.Markup.ClassList

/-! # Class attributes of a source text

The values of the attributes `class` and `className` are read wherever they stand. A value is
quoted text or a template, by itself or in braces. -/
namespace DesignTokens.Markup
open Text (utf8Length isBlank)

/-- An attribute with the byte offset at which its value begins, behind the quote. -/
structure Attribute where
  name : String
  start : Nat
  atoms : List Atom
  deriving Repr, DecidableEq

namespace Attribute

/-- The value between its quotes. -/
def value (a : Attribute) : List Char := a.atoms.flatMap Atom.text

def stop (a : Attribute) : Nat := a.start + utf8Length a.value

def pieces (a : Attribute) : List Piece := piecesFrom a.start [] a.atoms

/-- The classes that the value names, in their order. -/
def words (a : Attribute) : List Word := a.pieces.filterMap Piece.name?

end Attribute

/-- A character that goes on with a name. -/
def isNameChar (c : Char) : Bool :=
  Text.isLetterOrNumeric c || c = '_' || c = '-' || c = '$' || c = '.' || c = ':'

/-- The name at the front of a text, and the text behind it. -/
def attributeName? : List Char → Option (String × List Char)
  | 'c' :: 'l' :: 'a' :: 's' :: 's' :: cs =>
    match cs with
    | 'N' :: 'a' :: 'm' :: 'e' :: ds => some ("className", ds)
    | _ => some ("class", cs)
  | _ => none

def skipBlank (cs : List Char) : List Char := cs.dropWhile isBlank

theorem length_skipBlank_le (cs : List Char) : (skipBlank cs).length ≤ cs.length :=
  (List.dropWhile_sublist isBlank).length_le

def isQuote (c : Char) : Bool := c = '"' || c = '\'' || c = '`'

/-- The quoting that a quote begins; in a template a backslash always escapes. -/
def quotingOf? (escapes : Bool) : List Char → Option (Quoting × List Char)
  | [] => none
  | c :: cs => if isQuote c then some (⟨c, escapes || c = '`'⟩, cs) else none

/-- The quoting of the value behind the name of an attribute, and the text behind the quote. -/
def opening? (cs : List Char) : Option (Quoting × List Char) :=
  match skipBlank cs with
  | '=' :: ds =>
    match skipBlank ds with
    | '\x7b' :: es => quotingOf? true (skipBlank es)
    | es => quotingOf? false es
  | _ => none

theorem length_quotingOf?_lt {escapes : Bool} {cs rest : List Char} {q : Quoting}
    (h : quotingOf? escapes cs = some (q, rest)) : rest.length < cs.length := by
  cases cs with
  | nil => simp [quotingOf?] at h
  | cons c cs =>
    simp only [quotingOf?] at h
    split at h <;> simp at h
    obtain ⟨-, rfl⟩ := h
    simp

theorem length_opening?_lt {cs rest : List Char} {q : Quoting}
    (h : opening? cs = some (q, rest)) : rest.length < cs.length := by
  have hcs := length_skipBlank_le cs
  unfold opening? at h
  split at h
  · rename_i ds hds
    have := length_skipBlank_le ds
    rw [hds] at hcs
    simp only [List.length_cons] at hcs
    split at h
    · rename_i es hes
      have hq := length_quotingOf?_lt h
      have := length_skipBlank_le es
      grind
    · have hq := length_quotingOf?_lt h
      grind
  · simp at h

theorem length_attributeName?_lt {cs rest : List Char} {name : String}
    (h : attributeName? cs = some (name, rest)) : rest.length < cs.length := by
  unfold attributeName? at h
  split at h
  · split at h <;> simp at h <;> obtain ⟨-, rfl⟩ := h <;> simp <;> omega
  · simp at h

/-- An attribute found at the front of a text. -/
structure Sighting where
  name : String
  /-- The text up to the value: the name, an equals sign and a quote among it. -/
  lead : List Char
  atoms : List Atom
  /-- The text from the closing quote on. -/
  rest : List Char
  deriving Repr, DecidableEq

/-- The attribute at the front of a text, behind the character `previous`. -/
def sighting? (previous : Option Char) (cs : List Char) : Option Sighting :=
  if previous.any isNameChar then none
  else
    match attributeName? cs with
    | none => none
    | some (name, behindName) =>
      match opening? behindName with
      | none => none
      | some (quoting, value) =>
        (quoting.atoms? value).map fun (atoms, rest) =>
          ⟨name, cs.take (cs.length - value.length), atoms, rest⟩

theorem length_sighting?_lt {previous : Option Char} {cs : List Char} {s : Sighting}
    (h : sighting? previous cs = some s) : s.rest.length < cs.length := by
  unfold sighting? at h
  split at h
  · simp at h
  · split at h
    · simp at h
    · rename_i name behindName hn
      split at h
      · simp at h
      · rename_i quoting value hv
        obtain ⟨⟨atoms, rest⟩, ha, rfl⟩ := Option.map_eq_some_iff.1 h
        have h1 := length_attributeName?_lt hn
        have h2 := length_opening?_lt hv
        have h3 := Quoting.length_atoms?_le ha
        simp only
        omega

/-- A stretch of a source text. -/
inductive Segment
  | plain (text : List Char)
  | value (found : Attribute)
  deriving Repr, DecidableEq

namespace Segment

def text : Segment → List Char
  | plain text => text
  | value a => a.value

def attribute? : Segment → Option Attribute
  | plain _ => none
  | value a => some a

end Segment

/-- The stretches of a text that begins at a byte offset behind the character `previous`. A closing
quote begins no attribute, whatever it is behind. -/
def segmentsFrom (previous : Option Char) (offset : Nat) (cs : List Char) : List Segment :=
  match cs with
  | [] => []
  | c :: ds =>
    match _h : sighting? previous (c :: ds) with
    | some s =>
      let found : Attribute := ⟨s.name, offset + utf8Length s.lead, s.atoms⟩
      .plain s.lead :: .value found :: segmentsFrom none found.stop s.rest
    | none => .plain [c] :: segmentsFrom (some c) (offset + c.utf8Size) ds
termination_by cs.length
decreasing_by
  · exact length_sighting?_lt _h
  · simp

/-- A source text as plain stretches and values of class attributes. -/
def segments (source : List Char) : List Segment := segmentsFrom none 0 source

/-- Every class attribute in its order. -/
def attributes (source : List Char) : List Attribute :=
  (segments source).filterMap Segment.attribute?

/-- Every class that an attribute names, in order and with repetitions. -/
def classes (source : List Char) : List Word := (attributes source).flatMap Attribute.words

end DesignTokens.Markup
