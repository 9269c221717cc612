/-! # Where quoted text, templates and regular expressions end -/
namespace DesignTokens.Script

/-- How far a literal reaches after its opening character, and whether it is closed there. -/
structure Extent where
  closed : Bool
  length : Nat
  deriving Repr, DecidableEq

namespace Extent

def more (n : Nat) (e : Extent) : Extent := { e with length := n + e.length }

/-- What encloses a character of a template: quoted text, a template, or the braces of code. -/
inductive Frame
  | quoted (quote : Char)
  | template
  | code
  deriving Repr, DecidableEq

/-- The frames around the character that follows `c` in code. -/
def Frame.enter (frames : List Frame) (c : Char) : List Frame :=
  match c with
  | '\x7b' => .code :: .code :: frames
  | '\x7d' => frames
  | '"' => .quoted '"' :: .code :: frames
  | '\'' => .quoted '\'' :: .code :: frames
  | '`' => .template :: .code :: frames
  | _ => .code :: frames

/-- The extent of all the frames, innermost first. A backslash hides the character after it in
quoted text and in templates, and a line end leaves quoted text unclosed. -/
def ofFrames : List Frame → List Char → Extent
  | [], _ => ⟨true, 0⟩
  | _ :: _, [] => ⟨false, 0⟩
  | .code :: frames, c :: cs => (ofFrames (Frame.enter frames c) cs).more 1
  | .quoted quote :: frames, c :: cs =>
    if c = quote then (ofFrames frames cs).more 1
    else if c = '\n' then ⟨false, 1⟩
    else if c = '\\' then
      match cs with
      | [] => ⟨false, 1⟩
      | _ :: rest => (ofFrames (.quoted quote :: frames) rest).more 2
    else (ofFrames (.quoted quote :: frames) cs).more 1
  | .template :: _, ['\\'] => ⟨false, 1⟩
  | .template :: frames, '\\' :: _ :: cs => (ofFrames (.template :: frames) cs).more 2
  | .template :: frames, '$' :: '\x7b' :: cs => (ofFrames (.code :: .template :: frames) cs).more 2
  | .template :: frames, c :: cs =>
    if c = '`' then (ofFrames frames cs).more 1 else (ofFrames (.template :: frames) cs).more 1

def ofQuoted (quote : Char) (cs : List Char) : Extent := ofFrames [.quoted quote] cs

def ofTemplate (cs : List Char) : Extent := ofFrames [.template] cs

/-- The rest of an interpolation after its opening brace. -/
def ofInterpolation (cs : List Char) : Extent := ofFrames [.code] cs

/-- Whether the body of a template opens an interpolation. -/
def interpolates : List Char → Bool
  | '\\' :: _ :: cs => interpolates cs
  | '$' :: '\x7b' :: _ => true
  | _ :: cs => interpolates cs
  | [] => false

/-- A regular expression up to its closing slash. Inside a character class a slash is text, and a
line end leaves the expression unclosed. -/
def ofRegex (inClass : Bool) : List Char → Extent
  | [] => ⟨false, 0⟩
  | '\\' :: [] => ⟨false, 1⟩
  | '\\' :: _ :: cs => (ofRegex inClass cs).more 2
  | c :: cs =>
    if c = '[' then (ofRegex true cs).more 1
    else if c = ']' then (ofRegex false cs).more 1
    else if c = '/' ∧ inClass = false then ⟨true, 1⟩
    else if c = '\n' then ⟨false, 1⟩
    else (ofRegex inClass cs).more 1

/-- A block comment after its opening mark. -/
def ofBlockComment : List Char → Extent
  | [] => ⟨false, 0⟩
  | '*' :: '/' :: _ => ⟨true, 2⟩
  | _ :: cs => (ofBlockComment cs).more 1

end Extent
end DesignTokens.Script
