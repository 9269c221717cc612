/-! # Byte offsets, lines and columns -/
namespace DesignTokens.Text

/-- The number of bytes of a text in UTF-8. -/
def utf8Length : List Char → Nat
  | [] => 0
  | c :: cs => c.utf8Size + utf8Length cs

@[simp] theorem utf8Length_append (xs ys : List Char) :
    utf8Length (xs ++ ys) = utf8Length xs + utf8Length ys := by
  induction xs with
  | nil => simp [utf8Length]
  | cons c cs ih => simp [utf8Length, ih]; omega

/-- A half-open range of byte offsets. -/
structure Span where
  start : Nat
  stop : Nat
  deriving Repr, DecidableEq, Inhabited

def Span.length (s : Span) : Nat := s.stop - s.start

/-- A place in a text: lines are counted from one, and so are the characters of a line. -/
structure Position where
  line : Nat
  column : Nat
  deriving Repr, DecidableEq

def Position.advance (p : Position) (c : Char) : Position :=
  if c = '\n' then ⟨p.line + 1, 1⟩ else ⟨p.line, p.column + 1⟩

/-- The place reached from `p` after every character that begins before the byte offset. -/
def Position.walk (p : Position) : (offset : Nat) → List Char → Position
  | 0, _ => p
  | _ + 1, [] => p
  | n + 1, c :: cs => (p.advance c).walk (n + 1 - c.utf8Size) cs

/-- The place of a byte offset; one inside a character counts as after that character. -/
def Position.ofOffset (text : List Char) (offset : Nat) : Position :=
  Position.walk ⟨1, 1⟩ offset text

end DesignTokens.Text
