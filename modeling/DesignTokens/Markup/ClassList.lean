import DesignTokens.Text.Blank
import DesignTokens.Text.Position

/-! # Words of a class list -/
namespace DesignTokens.Markup
open Text (utf8Length isBlank)

/-- A word and the byte offset at which it begins. -/
structure Word where
  text : List Char
  start : Nat
  deriving Repr, DecidableEq

namespace Word

def stop (w : Word) : Nat := w.start + utf8Length w.text

def value (w : Word) : String := String.ofList w.text

end Word

/-- The words of a text behind a run without blanks, which begins at `start` and is held in
reverse. -/
def wordsFrom (start : Nat) (run : List Char) : List Char → List Word
  | [] => if run.isEmpty then [] else [⟨run.reverse, start⟩]
  | c :: cs =>
    if isBlank c then
      (if run.isEmpty then [] else [⟨run.reverse, start⟩])
        ++ wordsFrom (start + utf8Length run + c.utf8Size) [] cs
    else wordsFrom start (c :: run) cs

/-- The words of a text that begins at the byte offset `start`. -/
def words (text : List Char) (start : Nat) : List Word := wordsFrom start [] text

/-- The least part of a value that is read at once. -/
inductive Atom
  | blank (char : Char)
  | char (char : Char)
  /-- A backslash and the character it hides. -/
  | escaped (char : Char)
  /-- A dollar sign with braces and the code inside them. -/
  | interpolation (code : List Char)
  deriving Repr, DecidableEq

namespace Atom

def text : Atom → List Char
  | blank c => [c]
  | char c => [c]
  | escaped c => ['\\', c]
  | interpolation code => '$' :: '\x7b' :: code

def isBlank : Atom → Bool
  | blank _ => true
  | _ => false

def isInterpolation : Atom → Bool
  | interpolation _ => true
  | _ => false

end Atom

/-- The length of the code up to the brace that closes the last of some open ones. Only braces are
looked at. -/
def codeLength (openBraces : Nat) : List Char → Option Nat
  | [] => none
  | c :: cs =>
    if c = '\x7b' then (codeLength (openBraces + 1) cs).map (· + 1)
    else if c = '\x7d' then
      if openBraces ≤ 1 then some 1 else (codeLength (openBraces - 1) cs).map (· + 1)
    else (codeLength openBraces cs).map (· + 1)

/-- The quotes around a value, and whether a backslash hides the character after it. -/
structure Quoting where
  quote : Char
  escapes : Bool
  deriving Repr, DecidableEq

/-- The atoms of a value up to its closing quote, and the text from there on. A value that is not
closed has none. -/
def Quoting.atoms? (q : Quoting) : List Char → Option (List Atom × List Char)
  | [] => none
  | c :: cs =>
    if c = q.quote then some ([], c :: cs)
    else if Text.isBlank c then (q.atoms? cs).map fun (as, rest) => (.blank c :: as, rest)
    else if q.escapes && c = '\\' then
      match cs with
      | [] => none
      | d :: cs => (q.atoms? cs).map fun (as, rest) => (.escaped d :: as, rest)
    else if q.quote = '`' && c = '$' && cs.head? = some '\x7b' then
      match codeLength 1 (cs.drop 1) with
      | none => none
      | some length =>
        (q.atoms? ((cs.drop 1).drop length)).map fun (as, rest) =>
          (.interpolation ((cs.drop 1).take length) :: as, rest)
    else (q.atoms? cs).map fun (as, rest) => (.char c :: as, rest)
termination_by cs => cs.length
decreasing_by all_goals simp; try omega

theorem Quoting.length_atoms?_le {q : Quoting} {cs : List Char} {as : List Atom}
    {rest : List Char} (h : q.atoms? cs = some (as, rest)) : rest.length ≤ cs.length := by
  fun_induction Quoting.atoms? q cs generalizing as rest <;>
    grind [Option.map_eq_some_iff, List.length_drop]

/-- A part of a value between blanks. -/
inductive Piece
  | name (word : Word)
  /-- A word around an interpolation: what classes it stands for is unknown. -/
  | dynamic (word : Word)
  deriving Repr, DecidableEq

namespace Piece

def word : Piece → Word
  | name word => word
  | dynamic word => word

/-- The class that a piece names. -/
def name? : Piece → Option Word
  | name word => some word
  | dynamic _ => none

/-- The piece that a run of atoms makes up, if there is any. -/
def ofRun (start : Nat) (run : List Atom) : List Piece :=
  if run.isEmpty then []
  else
    let word : Word := ⟨run.flatMap Atom.text, start⟩
    [if run.any Atom.isInterpolation then dynamic word else name word]

end Piece

/-- The pieces of a value behind a run without blanks, which begins at `start` and is held in
reverse. -/
def piecesFrom (start : Nat) (run : List Atom) : List Atom → List Piece
  | [] => Piece.ofRun start run.reverse
  | a :: as =>
    if a.isBlank then
      Piece.ofRun start run.reverse
        ++ piecesFrom (start + utf8Length (run.reverse.flatMap Atom.text) + utf8Length a.text) [] as
    else piecesFrom start (a :: run) as

end DesignTokens.Markup
