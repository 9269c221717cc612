import DesignTokens.Script.Document

/-! # A parser that holds a position

The tokens stay where they are, and a reader is at a position among them. One that fails leaves the
position where it failed, and whoever tries something else goes back to where it began. The empty
token at the end is never passed. Nothing in how the readers call each other bounds the calls, and
one level less than no open delimiters is an outcome of its own, so that it has to be proved that
the steps granted to a call suffice and that no level falls below zero. -/
namespace DesignTokens.Script
open DesignTokens.Script.Parser (levelAfter endsValue)

/-- Tokens with the empty token at their end, the only one of its kind. -/
structure Stream where
  tokens : List Token
  last : Token
  last_kind : last.kind = .endOfText
  kind_ne : ∀ t ∈ tokens, t.kind ≠ .endOfText

/-- A position among the tokens, and the position of the group that was too deep. -/
structure Cursor where
  position : Nat
  tooDeep : Option Nat
  deriving Repr, DecidableEq

namespace Cursor

def backTo (c : Cursor) (position : Nat) : Cursor := { c with position := position }

/-- The first group that is too deep is kept. -/
def refuse (c : Cursor) : Cursor := { c with tooDeep := some (c.tooDeep.getD c.position) }

end Cursor

/-- What a call comes to. -/
inductive Halt (α : Type)
  | done (value : α) (c : Cursor)
  | failed (c : Cursor)
  | outOfSteps
  | belowZero
  deriving Repr

namespace Halt
variable {α β : Type}

/-- What follows a call that succeeds. -/
def andThen (h : Halt α) (next : α → Cursor → Halt β) : Halt β :=
  match h with
  | done value c => next value c
  | failed c => failed c
  | outOfSteps => outOfSteps
  | belowZero => belowZero

def map (f : α → β) (h : Halt α) : Halt β := h.andThen fun value c => done (f value) c

/-- What follows a call that may fail, unless a group was too deep in its course. -/
def orElse (h : Halt α) (next : α → Cursor → Halt β) (other : Cursor → Halt β) : Halt β :=
  match h with
  | done value c => next value c
  | failed c => if c.tooDeep.isSome then failed c else other c
  | outOfSteps => outOfSteps
  | belowZero => belowZero

end Halt

namespace Stream
variable (s : Stream)

def current (c : Cursor) : Token := s.tokens.getD c.position s.last

def advance (c : Cursor) : Cursor :=
  if c.position + 1 < s.tokens.length + 1 then { c with position := c.position + 1 } else c

def check (kind : TokenKind) (c : Cursor) : Bool := (s.current c).kind = kind

def atValueEnd (c : Cursor) : Bool :=
  endsValue (s.current c).kind || s.check .endOfText c

/-- Behind an item: behind its comma, or at the end of the container. -/
def nextItem? (delimiter : Delimiter) (c : Cursor) : Option Cursor :=
  if s.check .comma c then some (s.advance c)
  else if s.check (.closer delimiter) c then some c
  else none

def afterItem {α : Type} (delimiter : Delimiter) (c : Cursor) (next : Cursor → Halt α) : Halt α :=
  match s.nextItem? delimiter c with
  | some c => next c
  | none => .failed c

-- In what follows a step is a call or a turn of a loop.

/-- To just behind the partner of the delimiter at the position, and the offset there. -/
def skipBalanced (steps level : Nat) (c : Cursor) : Halt Nat :=
  match steps with
  | 0 => .outOfSteps
  | steps + 1 =>
    let t := s.current c
    if t.kind = .endOfText then .failed c
    else
      match levelAfter level t.kind with
      | none => .failed c
      | some 0 => .done t.span.stop (s.advance c)
      | some level => skipBalanced steps level (s.advance c)

/-- The key of a property: absent if it is computed. -/
def key (steps : Nat) (c : Cursor) : Halt (Option String) :=
  match (s.current c).kind with
  | .identifier name => .done (some name) (s.advance c)
  | .string name => .done (some name) (s.advance c)
  | .number value => .done (some value.numeral) (s.advance c)
  | .opener .bracket => (s.skipBalanced steps 0 c).map fun _ => none
  | _ => .failed c

/-- A name stands for a property of that name where the member ends behind it. -/
def isShorthand (first : Token) (c : Cursor) : Bool :=
  match first.kind with
  | .identifier _ => s.check .comma c || s.check (.closer .brace) c
  | _ => false

/-- A group that is not too deep: its opening delimiter, and what reads the rest of it together with
the offset where it ends. -/
def group {α : Type} (delimiter : Delimiter) (depth : Nat) (make : Text.Span → α → Expr)
    (inside : Cursor → Halt (α × Nat)) (c : Cursor) : Halt Expr :=
  if maxNesting < depth then .failed c.refuse
  else if s.check (.opener delimiter) c then
    (inside (s.advance c)).map fun (value, stop) => make ⟨(s.current c).span.start, stop⟩ value
  else .failed c

mutual

def object (steps depth : Nat) (c : Cursor) : Halt Expr :=
  match steps with
  | 0 => .outOfSteps
  | steps + 1 => s.group .brace depth .object (fun c => members steps depth c) c

/-- The members of an object and the brace that closes it. -/
def members (steps depth : Nat) (c : Cursor) : Halt (List Member × Nat) :=
  match steps with
  | 0 => .outOfSteps
  | steps + 1 =>
    if s.check (.closer .brace) c then .done ([], (s.current c).span.stop) (s.advance c)
    else
      (member steps depth c).andThen fun first c =>
        s.afterItem .brace c fun c =>
          (members steps depth c).map fun (others, stop) => (first :: others, stop)

def member (steps depth : Nat) (c : Cursor) : Halt Member :=
  match steps with
  | 0 => .outOfSteps
  | steps + 1 =>
    if s.check .spread c then (value steps depth (s.advance c)).map .spread
    else
      let first := s.current c
      (s.key steps c).andThen fun key c =>
        if s.check .colon c then (value steps depth (s.advance c)).map (.pair key)
        else if s.check (.opener .parenthesis) c then (method steps depth c).map (.pair key)
        else if s.isShorthand first c then .done (.pair key (.dynamic first.span [])) c
        else .failed c

def method (steps depth : Nat) (c : Cursor) : Halt Expr :=
  match steps with
  | 0 => .outOfSteps
  | steps + 1 =>
    let start := (s.current c).span.start
    (s.skipBalanced steps 0 c).andThen fun _ c =>
      if s.check (.opener .brace) c then dynamic steps depth start c else .failed c

def array (steps depth : Nat) (c : Cursor) : Halt Expr :=
  match steps with
  | 0 => .outOfSteps
  | steps + 1 => s.group .bracket depth .array (fun c => items steps depth c) c

/-- The items of an array and the bracket that closes it. -/
def items (steps depth : Nat) (c : Cursor) : Halt (List Expr × Nat) :=
  match steps with
  | 0 => .outOfSteps
  | steps + 1 =>
    if s.check (.closer .bracket) c then .done ([], (s.current c).span.stop) (s.advance c)
    else if s.check .comma c then items steps depth (s.advance c)
    else
      (item steps depth c).andThen fun first c =>
        s.afterItem .bracket c fun c =>
          (items steps depth c).map fun (others, stop) => (first :: others, stop)

def item (steps depth : Nat) (c : Cursor) : Halt Expr :=
  match steps with
  | 0 => .outOfSteps
  | steps + 1 =>
    if s.check .spread c then
      (value steps depth (s.advance c)).map fun inner =>
        .dynamic ⟨(s.current c).span.start, inner.span.stop⟩ [inner]
    else value steps depth c

/-- A literal where the value ends behind it, and any expression otherwise. -/
def value (steps depth : Nat) (c : Cursor) : Halt Expr :=
  match steps with
  | 0 => .outOfSteps
  | steps + 1 =>
    let start := (s.current c).span.start
    (literal steps depth c).orElse
      (fun expr behind =>
        if behind.tooDeep.isSome then .failed behind
        else if s.atValueEnd behind then .done expr behind
        else dynamic steps depth start (behind.backTo c.position))
      fun behind => dynamic steps depth start (behind.backTo c.position)

def literal (steps depth : Nat) (c : Cursor) : Halt Expr :=
  match steps with
  | 0 => .outOfSteps
  | steps + 1 =>
    let t := s.current c
    match t.kind with
    | .opener .brace => object steps (depth + 1) c
    | .opener .bracket => array steps (depth + 1) c
    | .string value => .done (.string t.span value) (s.advance c)
    | .number value => .done (.number t.span value) (s.advance c)
    | .template (some value) => .done (.template t.span value) (s.advance c)
    | _ => .failed c

def dynamic (steps depth start : Nat) (c : Cursor) : Halt Expr :=
  match steps with
  | 0 => .outOfSteps
  | steps + 1 =>
    (run steps depth 0 (s.current c).span.start c).andThen fun (found, stop) behind =>
      if behind.position = c.position then .failed behind
      else .done (.dynamic ⟨start, stop⟩ found) behind

/-- The objects of a run behind `level` open delimiters, and where its last token ends. -/
def run (steps depth level stop : Nat) (c : Cursor) : Halt (List Expr × Nat) :=
  match steps with
  | 0 => .outOfSteps
  | steps + 1 =>
    let t := s.current c
    if t.kind = .endOfText then .done ([], stop) c
    else if level = 0 ∧ endsValue t.kind then .done ([], stop) c
    else if level = 0 ∧ t.kind = .semicolon then .failed c
    else if t.kind = .opener .brace then
      (object steps (depth + 1) c).orElse
        (fun expr behind =>
          (run steps depth level expr.span.stop behind).map fun (found, stop) =>
            (expr :: found, stop))
        fun behind =>
          run steps depth (level + 1) t.span.stop (s.advance (behind.backTo c.position))
    else
      match levelAfter level t.kind with
      | none => .belowZero
      | some level => run steps depth level t.span.stop (s.advance c)

end

/-- The objects among all tokens. -/
def document (steps : Nat) (c : Cursor) : Halt (List Expr) :=
  match steps with
  | 0 => .outOfSteps
  | steps + 1 =>
    if s.check .endOfText c then .done [] c
    else if s.check (.opener .brace) c then
      (s.object steps 0 c).orElse
        (fun expr behind => (document steps behind).map (expr :: ·))
        fun behind => document steps (s.advance (behind.backTo c.position))
    else document steps (s.advance c)

end Stream
end DesignTokens.Script
