import DesignTokens.Number.Numeral
import DesignTokens.Rest
import DesignTokens.Script.Expr

/-! # Reading object literals from left to right

Every reader takes the tokens from some place on and gives what it read with the tokens behind it.
Nothing is known of statements: a value that is no literal is a run of tokens up to the comma or
the closing delimiter that ends it, and only the object literals inside it are kept. -/
namespace DesignTokens.Script
open Text (Span)

/-- The deepest object or array that is read, counted from zero. -/
def maxNesting : Nat := 256

/-- Why something is not read. -/
inductive Failure
  /-- It is something else. -/
  | mismatch
  /-- The group that opens at this offset is too deep, and the script is refused. -/
  | tooDeep (start : Nat)
  deriving Repr, DecidableEq

namespace Parser

abbrev Outcome (α : Type) (ts : List Token) := Except Failure (α × Rest ts)

namespace Outcome
variable {α β : Type} {ts us : List Token}

def widen (h : us.length ≤ ts.length) (o : Outcome α us) : Outcome α ts :=
  o.map fun (value, rest) => (value, rest.widen h)

def mapValue (f : α → β) (o : Outcome α ts) : Outcome β ts :=
  o.map fun (value, rest) => (f value, rest)

end Outcome

/-- The number of open delimiters behind a token; there is none behind one that closes too many. -/
def levelAfter (level : Nat) : TokenKind → Option Nat
  | .opener _ => some (level + 1)
  | .closer _ => if level = 0 then none else some (level - 1)
  | _ => some level

/-- What is behind the partner of the delimiter at the front. -/
def skipBalanced (level : Nat) : (ts : List Token) → Option (Rest ts)
  | [] => none
  | t :: ts =>
    match levelAfter level t.kind with
    | none => none
    | some 0 => some (Rest.tail t ts)
    | some level => (skipBalanced level ts).map fun rest => rest.widen (by simp)

/-- A token that a value ends in front of. -/
def endsValue : TokenKind → Bool
  | .comma | .closer _ => true
  | _ => false

def atValueEnd : List Token → Bool
  | [] => true
  | t :: _ => endsValue t.kind

/-- Tokens at most as many as others. -/
abbrev Left (ts : List Token) := { left : List Token // left.length ≤ ts.length }

/-- What follows an item: the tokens behind its comma, or the end of the container. -/
def nextItem? (delimiter : Delimiter) : (ts : List Token) → Option (Left ts)
  | [] => none
  | t :: ts =>
    if t.kind = .comma then some ⟨ts, by simp⟩
    else if t.kind = .closer delimiter then some ⟨t :: ts, Nat.le_refl _⟩
    else none

/-- The key of a property: absent if it is computed. -/
def key? : (ts : List Token) → Option (Option String × Rest ts)
  | [] => none
  | t :: ts =>
    match t.kind with
    | .identifier name => some (some name, Rest.tail t ts)
    | .string name => some (some name, Rest.tail t ts)
    | .number value => some (some value.numeral, Rest.tail t ts)
    | .opener .bracket => (skipBalanced 0 (t :: ts)).map fun rest => (none, rest)
    | _ => none

/-- A name that can stand for a property of that name by itself. -/
def isShorthand (t : Token) (ts : List Token) : Bool :=
  match t.kind, ts with
  | .identifier _, next :: _ => next.kind = .comma || next.kind = .closer .brace
  | _, _ => false

/-- A literal of one token. -/
def constant? (t : Token) : Option Expr :=
  match t.kind with
  | .string value => some (.string t.span value)
  | .number value => some (.number t.span value)
  | .template (some value) => some (.template t.span value)
  | _ => none

-- The measures are numbers, so that what a given text holds can be evaluated.
mutual

/-- An object literal. -/
def object (depth : Nat) (ts : List Token) : Outcome Expr ts :=
  match ts with
  | [] => .error .mismatch
  | t :: ts =>
    if maxNesting < depth then .error (.tooDeep t.span.start)
    else if t.kind = .opener .brace then
      match members depth ts with
      | .error failure => .error failure
      | .ok ((inside, stop), rest) =>
        .ok (.object ⟨t.span.start, stop⟩ inside, rest.widen (by simp))
    else .error .mismatch
termination_by 6 * ts.length

/-- The members behind an opening brace, and where the closing one ends. -/
def members (depth : Nat) (ts : List Token) : Outcome (List Member × Nat) ts :=
  match ts with
  | [] => .error .mismatch
  | t :: ts =>
    if t.kind = .closer .brace then .ok (([], t.span.stop), Rest.tail t ts)
    else
      match member depth (t :: ts) with
      | .error failure => .error failure
      | .ok (first, rest) =>
        match nextItem? .brace rest.1 with
        | none => .error .mismatch
        | some more =>
          match members depth more.1 with
          | .error failure => .error failure
          | .ok ((others, stop), last) =>
            .ok ((first :: others, stop),
              last.widen (Nat.le_trans more.2 (Nat.le_of_lt rest.2)))
termination_by 6 * ts.length + 5
decreasing_by
  all_goals grind

/-- A spread, a key with its value, a method, or the name of a variable. -/
def member (depth : Nat) (ts : List Token) : Outcome Member ts :=
  match ts with
  | [] => .error .mismatch
  | t :: ts =>
    if t.kind = .spread then ((value depth ts).mapValue .spread).widen (by simp)
    else
      match key? (t :: ts) with
      | none => .error .mismatch
      | some (key, ⟨[], _⟩) => .error .mismatch
      | some (key, ⟨next :: more, hrest⟩) =>
        if next.kind = .colon then
          ((value depth more).mapValue (.pair key)).widen (by simp at hrest ⊢; omega)
        else if next.kind = .opener .parenthesis then
          ((method depth (next :: more)).mapValue (.pair key)).widen (by simp at hrest ⊢; omega)
        else if isShorthand t (next :: more) then
          .ok (.pair key (.dynamic t.span []), ⟨next :: more, hrest⟩)
        else .error .mismatch
termination_by 6 * ts.length + 4
decreasing_by
  all_goals grind

/-- Parameters and a body behind the key of a method. -/
def method (depth : Nat) (ts : List Token) : Outcome Expr ts :=
  match ts with
  | [] => .error .mismatch
  | t :: ts =>
    match skipBalanced 0 (t :: ts) with
    | none => .error .mismatch
    | some ⟨[], _⟩ => .error .mismatch
    | some ⟨next :: body, hrest⟩ =>
      if next.kind = .opener .brace then
        (dynamic depth t.span.start (next :: body)).widen (Nat.le_of_lt hrest)
      else .error .mismatch
termination_by 6 * ts.length + 3
decreasing_by
  grind

/-- An array literal. -/
def array (depth : Nat) (ts : List Token) : Outcome Expr ts :=
  match ts with
  | [] => .error .mismatch
  | t :: ts =>
    if maxNesting < depth then .error (.tooDeep t.span.start)
    else if t.kind = .opener .bracket then
      match items depth ts with
      | .error failure => .error failure
      | .ok ((inside, stop), rest) =>
        .ok (.array ⟨t.span.start, stop⟩ inside, rest.widen (by simp))
    else .error .mismatch
termination_by 6 * ts.length

/-- The items behind an opening bracket, and where the closing one ends. Commas may repeat, for
holes. -/
def items (depth : Nat) (ts : List Token) : Outcome (List Expr × Nat) ts :=
  match ts with
  | [] => .error .mismatch
  | t :: ts =>
    if t.kind = .closer .bracket then .ok (([], t.span.stop), Rest.tail t ts)
    else if t.kind = .comma then (items depth ts).widen (by simp)
    else
      match item depth (t :: ts) with
      | .error failure => .error failure
      | .ok (first, rest) =>
        match nextItem? .bracket rest.1 with
        | none => .error .mismatch
        | some more =>
          match items depth more.1 with
          | .error failure => .error failure
          | .ok ((others, stop), last) =>
            .ok ((first :: others, stop),
              last.widen (Nat.le_trans more.2 (Nat.le_of_lt rest.2)))
termination_by 6 * ts.length + 5
decreasing_by
  all_goals grind

/-- The elements that a spread adds are unknown. -/
def item (depth : Nat) (ts : List Token) : Outcome Expr ts :=
  match ts with
  | [] => .error .mismatch
  | t :: ts =>
    if t.kind = .spread then
      ((value depth ts).mapValue fun inner =>
        .dynamic ⟨t.span.start, inner.span.stop⟩ [inner]).widen (by simp)
    else value depth (t :: ts)
termination_by 6 * ts.length + 4

/-- A literal is the value only where the value ends behind it. -/
def value (depth : Nat) (ts : List Token) : Outcome Expr ts :=
  match ts with
  | [] => .error .mismatch
  | t :: ts =>
    match literal depth (t :: ts) with
    | .error (.tooDeep start) => .error (.tooDeep start)
    | .error .mismatch => dynamic depth t.span.start (t :: ts)
    | .ok (expr, rest) =>
      if atValueEnd rest.1 then .ok (expr, rest) else dynamic depth t.span.start (t :: ts)
termination_by 6 * ts.length + 3

def literal (depth : Nat) (ts : List Token) : Outcome Expr ts :=
  match ts with
  | [] => .error .mismatch
  | t :: ts =>
    match t.kind with
    | .opener .brace => object (depth + 1) (t :: ts)
    | .opener .bracket => array (depth + 1) (t :: ts)
    | _ =>
      match constant? t with
      | some expr => .ok (expr, Rest.tail t ts)
      | none => .error .mismatch
termination_by 6 * ts.length + 1

/-- A run of unknown value, up to the comma or the closing delimiter that ends it. -/
def dynamic (depth start : Nat) (ts : List Token) : Outcome Expr ts :=
  match run depth 0 start ts with
  | .error failure => .error failure
  | .ok ((found, stop), left) =>
    if h : left.1.length < ts.length then .ok (.dynamic ⟨start, stop⟩ found, ⟨left.1, h⟩)
    else .error .mismatch
termination_by 6 * ts.length + 2

/-- The object literals of a run behind `level` open delimiters, and where its last token ends.
A group in braces that is no object literal is entered, and no semicolon may stand outside of
groups. -/
def run (depth level stop : Nat) (ts : List Token) :
    Except Failure ((List Expr × Nat) × Left ts) :=
  match ts with
  | [] => .ok (([], stop), ⟨[], Nat.le_refl _⟩)
  | t :: ts =>
    if t.kind = .opener .brace then
      match object (depth + 1) (t :: ts) with
      | .error (.tooDeep start) => .error (.tooDeep start)
      | .error .mismatch =>
        (run depth (level + 1) t.span.stop ts).map fun (found, left) =>
          (found, ⟨left.1, Nat.le_succ_of_le left.2⟩)
      | .ok (expr, rest) =>
        (run depth level expr.span.stop rest.1).map fun ((found, stop), left) =>
          ((expr :: found, stop), ⟨left.1, Nat.le_trans left.2 (Nat.le_of_lt rest.2)⟩)
    else if level = 0 ∧ endsValue t.kind then .ok (([], stop), ⟨t :: ts, Nat.le_refl _⟩)
    else if level = 0 ∧ t.kind = .semicolon then .error .mismatch
    else
      match levelAfter level t.kind with
      | none => .error .mismatch
      | some level =>
        (run depth level t.span.stop ts).map fun (found, left) =>
          (found, ⟨left.1, Nat.le_succ_of_le left.2⟩)
termination_by 6 * ts.length + 1
decreasing_by
  all_goals grind

end

/-- The object literals of some tokens, from left to right. A group in braces that is none is
entered. -/
def roots (ts : List Token) : Except Nat (List Expr) :=
  match ts with
  | [] => .ok []
  | t :: ts =>
    if t.kind = .opener .brace then
      match object 0 (t :: ts) with
      | .error (.tooDeep start) => .error start
      | .error .mismatch => roots ts
      | .ok (expr, rest) => (roots rest.1).map (expr :: ·)
    else roots ts
termination_by ts.length
decreasing_by
  · simp
  · exact rest.2
  · simp

end Parser
end DesignTokens.Script
