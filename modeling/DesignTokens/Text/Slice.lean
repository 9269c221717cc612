import DesignTokens.Text.Position

/-! # Parts of a text between byte offsets

An offset is on a boundary if some number of the first characters takes this many bytes. A part is
taken between two boundaries, the first of which may not lie behind the second. -/
namespace DesignTokens.Text

/-- The character that begins at a byte offset. -/
def charAt? : (offset : Nat) → List Char → Option Char
  | _, [] => none
  | 0, c :: _ => some c
  | n + 1, c :: cs => if c.utf8Size ≤ n + 1 then charAt? (n + 1 - c.utf8Size) cs else none

/-- A character lies in its text as a whole. -/
theorem add_utf8Size_le_of_charAt? {offset : Nat} {text : List Char} {c : Char}
    (h : charAt? offset text = some c) : offset + c.utf8Size ≤ utf8Length text := by
  fun_induction charAt? offset text with
  | case1 => cases h
  | case2 d cs =>
    cases h
    simp [utf8Length]
  | case3 n d cs hd ih =>
    have hrest := ih h
    rw [utf8Length]
    omega
  | case4 => cases h

/-- The text in front of a byte offset and the text behind it, if the offset is on a boundary. -/
def splitAt? : (offset : Nat) → List Char → Option (List Char × List Char)
  | 0, cs => some ([], cs)
  | _ + 1, [] => none
  | n + 1, c :: cs =>
    if c.utf8Size ≤ n + 1 then
      (splitAt? (n + 1 - c.utf8Size) cs).map fun (front, rest) => (c :: front, rest)
    else none

/-- The bounds of a part that a text does not have. -/
structure BadSlice where
  start : Nat
  stop : Nat
  deriving Repr, DecidableEq

/-- The part of a text between two byte offsets. -/
def slice (text : List Char) (start stop : Nat) : Except BadSlice (List Char) :=
  match splitAt? start text with
  | none => .error ⟨start, stop⟩
  | some (_, rest) =>
    if start ≤ stop then
      match splitAt? (stop - start) rest with
      | none => .error ⟨start, stop⟩
      | some (part, _) => .ok part
    else .error ⟨start, stop⟩

def sliceFrom (text : List Char) (start : Nat) : Except BadSlice (List Char) :=
  slice text start (utf8Length text)

def sliceTo (text : List Char) (stop : Nat) : Except BadSlice (List Char) := slice text 0 stop

end DesignTokens.Text
