import DesignTokens.Script.Token

/-! # Balanced groups of tokens -/
namespace DesignTokens.Script
open Text (Span)

/-- What keeps a script from being read. -/
inductive Fault
  | unterminatedLiteral (literal : LiteralKind) (span : Span)
  /-- The closing delimiter that would fit is absent when nothing is open. -/
  | mismatchedDelimiter (fitting : Option Delimiter) (span : Span)
  | unclosedDelimiter (span : Span)
  /-- The offset is that of the delimiter which opens one group too many. -/
  | nestingTooDeep (start : Nat)
  deriving Repr, DecidableEq

/-- A token that is no delimiter, or what stands between two delimiters that match. -/
inductive Nest
  | token (token : Token)
  | group (delimiter : Delimiter) (opening closing : Span) (body : List Nest)
  deriving Repr

namespace Nest

def span : Nest → Span
  | token t => t.span
  | group _ opening closing _ => ⟨opening.start, closing.stop⟩

/-- A single token of some kind. -/
def kind? : Nest → Option TokenKind
  | token t => some t.kind
  | group .. => none

def isKind (n : Nest) (kind : TokenKind) : Bool := n.kind? = some kind

mutual

/-- The tokens of a nest, delimiters included. -/
def tokens : Nest → List Token
  | token t => [t]
  | group delimiter opening closing body =>
    ⟨.opener delimiter, opening⟩ :: (tokensOf body ++ [⟨.closer delimiter, closing⟩])

def tokensOf : List Nest → List Token
  | [] => []
  | n :: ns => tokens n ++ tokensOf ns

end

/-- A group that is still open, with what stands before it in reverse. -/
structure Pending where
  delimiter : Delimiter
  opening : Span
  before : List Nest

/-- Groups the tokens behind some open groups, innermost first; `done` is what the innermost one
holds so far, in reverse. -/
def build (pending : List Pending) (done : List Nest) : List Token → Except Fault (List Nest)
  | [] =>
    match pending with
    | [] => .ok done.reverse
    | innermost :: _ => .error (.unclosedDelimiter innermost.opening)
  | t :: ts =>
    match t.kind, pending with
    | .opener delimiter, _ => build (⟨delimiter, t.span, done⟩ :: pending) [] ts
    | .closer _, [] => .error (.mismatchedDelimiter none t.span)
    | .closer delimiter, innermost :: outer =>
      if innermost.delimiter = delimiter then
        build outer
          (.group delimiter innermost.opening t.span done.reverse :: innermost.before) ts
      else .error (.mismatchedDelimiter (some innermost.delimiter) t.span)
    | _, _ => build pending (.token t :: done) ts

/-- The nests of balanced tokens. Of the ones that are not balanced the first closing delimiter
that does not fit is at fault, or else the innermost group that stays open. -/
def ofTokens (ts : List Token) : Except Fault (List Nest) := build [] [] ts

mutual

/-- The number of tokens of a nest. -/
def weight : Nest → Nat
  | token _ => 1
  | group _ _ _ body => weights body + 2

def weights : List Nest → Nat
  | [] => 0
  | n :: ns => weight n + weights ns

end

@[simp] theorem weights_nil : weights [] = 0 := rfl

@[simp] theorem weights_cons (n : Nest) (ns : List Nest) :
    weights (n :: ns) = weight n + weights ns := rfl

theorem weight_pos (n : Nest) : 0 < weight n := by
  cases n <;> simp [weight]

/-- The runs between the commas of a body; there is one more of them than there are commas. -/
def slices : List Nest → List (List Nest)
  | [] => [[]]
  | n :: ns =>
    if n.isKind .comma then [] :: slices ns
    else
      match slices ns with
      | [] => [[n]]
      | slice :: rest => (n :: slice) :: rest

/-- The weight of the runs with the commas between them. -/
def slicesWeight : List (List Nest) → Nat
  | [] => 0
  | slice :: rest => weights slice + 1 + slicesWeight rest

theorem slicesWeight_slices (ns : List Nest) : slicesWeight (slices ns) = weights ns + 1 := by
  induction ns with
  | nil => rfl
  | cons n ns ih =>
    simp only [slices]
    split
    · rename_i h
      have : weight n = 1 := by
        cases n with
        | token t => rfl
        | group d o c b => simp [isKind, kind?] at h
      simp [slicesWeight, ih, this]
      omega
    · split
      · rename_i h
        rw [h] at ih
        simp [slicesWeight] at ih
      · rename_i slice rest h
        rw [h] at ih
        simp [slicesWeight] at ih ⊢
        omega

/-- Without the empty run behind a comma at the end. -/
def dropEmptyLast : List (List Nest) → List (List Nest)
  | [] => []
  | [[]] => []
  | slice :: rest => slice :: dropEmptyLast rest

theorem slicesWeight_dropEmptyLast_le (ss : List (List Nest)) :
    slicesWeight (dropEmptyLast ss) ≤ slicesWeight ss := by
  fun_induction dropEmptyLast ss <;> simp_all [slicesWeight]

theorem slicesWeight_filter_le (p : List Nest → Bool) (ss : List (List Nest)) :
    slicesWeight (ss.filter p) ≤ slicesWeight ss := by
  induction ss with
  | nil => simp
  | cons s ss ih =>
    simp only [List.filter_cons]
    split <;> simp [slicesWeight] <;> omega

end Nest
end DesignTokens.Script
