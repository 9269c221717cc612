import DesignTokens.Script.Nest
import DesignTokens.Script.Parser

/-! # Reading object literals from nests

The object literals of balanced tokens, found by recursion on their groups: a body is cut at its
commas first, and nothing is read twice from one place. -/
namespace DesignTokens.Script
open Text (Span)

/-- What is read from a group or from a run of nests. -/
abbrev Reading (α : Type) := Except Failure α

namespace Nest

/-- The key of a property: absent if it is computed. -/
def key? : Nest → Option (Option String)
  | token ⟨.identifier name, _⟩ => some (some name)
  | token ⟨.string name, _⟩ => some (some name)
  | token ⟨.number value, _⟩ => some (some value.numeral)
  | group .bracket _ _ _ => some none
  | _ => none

/-- A name that can stand for a property of that name by itself. -/
def isShorthand : Nest → Bool
  | token ⟨.identifier _, _⟩ => true
  | _ => false

def isGroup (delimiter : Delimiter) : Nest → Bool
  | group d _ _ _ => d = delimiter
  | token _ => false

/-- A literal of one token. -/
def constant? : Nest → Option Expr
  | token ⟨.string value, span⟩ => some (.string span value)
  | token ⟨.number value, span⟩ => some (.number span value)
  | token ⟨.template (some value), span⟩ => some (.template span value)
  | _ => none

end Nest

open Nest (weight weights slices slicesWeight dropEmptyLast)

namespace Reading

theorem weights_takeWhile_le (p : Nest → Bool) (ns : List Nest) :
    weights (ns.takeWhile p) ≤ weights ns := by
  induction ns with
  | nil => simp
  | cons n ns ih =>
    simp only [List.takeWhile_cons]
    split
    · simp only [Nest.weights_cons]; omega
    · simp

mutual

/-- The group in braces as an object literal. -/
def object (depth : Nat) (opening closing : Span) (body : List Nest) : Reading Expr :=
  if maxNesting < depth then .error (.tooDeep opening.start)
  else
    match members depth (dropEmptyLast (slices body)) with
    | .error failure => .error failure
    | .ok members => .ok (.object ⟨opening.start, closing.stop⟩ members)
termination_by (weights body + 1, 5)
decreasing_by
  have := Nest.slicesWeight_dropEmptyLast_le (slices body)
  rw [Nest.slicesWeight_slices] at this
  grind

/-- A member for each run. -/
def members (depth : Nat) (runs : List (List Nest)) : Reading (List Member) :=
  match runs with
  | [] => .ok []
  | run :: rest =>
    match member depth run with
    | .error failure => .error failure
    | .ok first =>
      match members depth rest with
      | .error failure => .error failure
      | .ok others => .ok (first :: others)
termination_by (slicesWeight runs, 4)
decreasing_by
  all_goals simp only [slicesWeight]; grind

/-- A spread, a key with its value, a method, or the name of a variable. -/
def member (depth : Nat) (run : List Nest) : Reading Member :=
  match run with
  | [] => .error .mismatch
  | first :: rest =>
    if first.isKind .spread then (value depth rest).map .spread
    else
      match first.key?, rest with
      | none, _ => .error .mismatch
      | some key, [] =>
        if first.isShorthand then .ok (.pair key (.dynamic first.span [])) else .error .mismatch
      | some key, next :: more =>
        if next.isKind .colon then (value depth more).map (.pair key)
        else if next.isGroup .parenthesis && (more.head?.any (·.isGroup .brace)) then
          (dynamic depth next.span.start more).map (.pair key)
        else .error .mismatch
termination_by (weights run + 1, 3)
decreasing_by
  all_goals simp; grind

/-- The group in brackets as an array literal. Runs may be empty, for holes. -/
def array (depth : Nat) (opening closing : Span) (body : List Nest) : Reading Expr :=
  if maxNesting < depth then .error (.tooDeep opening.start)
  else
    match elements depth ((slices body).filter fun run => !run.isEmpty) with
    | .error failure => .error failure
    | .ok items => .ok (.array ⟨opening.start, closing.stop⟩ items)
termination_by (weights body + 1, 5)
decreasing_by
  have := Nest.slicesWeight_filter_le (fun run => !run.isEmpty) (slices body)
  rw [Nest.slicesWeight_slices] at this
  grind

def elements (depth : Nat) (runs : List (List Nest)) : Reading (List Expr) :=
  match runs with
  | [] => .ok []
  | run :: rest =>
    match element depth run with
    | .error failure => .error failure
    | .ok first =>
      match elements depth rest with
      | .error failure => .error failure
      | .ok others => .ok (first :: others)
termination_by (slicesWeight runs, 4)
decreasing_by
  all_goals simp only [slicesWeight]; grind

/-- The elements that a spread adds are unknown. -/
def element (depth : Nat) (run : List Nest) : Reading Expr :=
  match run with
  | [] => .error .mismatch
  | first :: rest =>
    if first.isKind .spread then
      (value depth rest).map fun inner =>
        .dynamic ⟨first.span.start, inner.span.stop⟩ [inner]
    else value depth (first :: rest)
termination_by (weights run + 1, 3)
decreasing_by
  all_goals simp_all; try grind

/-- A run is the value of a literal only where it is nothing else. -/
def value (depth : Nat) (run : List Nest) : Reading Expr :=
  match run with
  | [] => .error .mismatch
  | first :: rest =>
    match literal depth first with
    | .error (.tooDeep start) => .error (.tooDeep start)
    | .error .mismatch => dynamic depth first.span.start (first :: rest)
    | .ok expr =>
      if rest.isEmpty then .ok expr else dynamic depth first.span.start (first :: rest)
termination_by (weights run + 1, 2)
decreasing_by
  all_goals simp_all; try grind

def literal (depth : Nat) (nest : Nest) : Reading Expr :=
  match nest with
  | .group .brace opening closing body => object (depth + 1) opening closing body
  | .group .bracket opening closing body => array (depth + 1) opening closing body
  | nest =>
    match nest.constant? with
    | some expr => .ok expr
    | none => .error .mismatch
termination_by (weight nest, 6)
decreasing_by
  all_goals simp only [weight]; grind

/-- A run of unknown value, which no semicolon cuts. -/
def dynamic (depth start : Nat) (run : List Nest) : Reading Expr :=
  match run.getLast? with
  | none => .error .mismatch
  | some last =>
    match found (depth + 1) (run.takeWhile fun n => !n.isKind .semicolon) with
    | .error start => .error (.tooDeep start)
    | .ok objects =>
      if run.any (·.isKind .semicolon) then .error .mismatch
      else .ok (.dynamic ⟨start, last.span.stop⟩ objects)
termination_by (weights run + 1, 1)
decreasing_by
  have := weights_takeWhile_le (fun n => !n.isKind .semicolon) run
  grind

/-- The outermost object literals of some nests, or the offset of a group that is too deep. -/
def found (depth : Nat) (nests : List Nest) : Except Nat (List Expr) :=
  match nests with
  | [] => .ok []
  | .token _ :: rest => found depth rest
  | .group delimiter opening closing body :: rest =>
    let here : Except Nat (List Expr) :=
      if delimiter = .brace then
        match object depth opening closing body with
        | .ok expr => .ok [expr]
        | .error .mismatch => found depth body
        | .error (.tooDeep start) => .error start
      else found depth body
    match here with
    | .error start => .error start
    | .ok inside =>
      match found depth rest with
      | .error start => .error start
      | .ok others => .ok (inside ++ others)
termination_by (weights nests + 1, 0)
decreasing_by
  all_goals simp [weight]; try grind

end

theorem object_of_le {depth : Nat} (h : depth ≤ maxNesting) (o c : Span) (body : List Nest) :
    object depth o c body =
      (members depth (dropEmptyLast (slices body))).map (.object ⟨o.start, c.stop⟩) := by
  rw [object, if_neg (Nat.not_lt.2 h)]
  cases members depth (dropEmptyLast (slices body)) <;> rfl

theorem object_of_lt {depth : Nat} (h : maxNesting < depth) (o c : Span) (body : List Nest) :
    object depth o c body = .error (.tooDeep o.start) := by
  rw [object, if_pos h]

theorem array_of_le {depth : Nat} (h : depth ≤ maxNesting) (o c : Span) (body : List Nest) :
    array depth o c body =
      (elements depth ((slices body).filter fun run => !run.isEmpty)).map
        (.array ⟨o.start, c.stop⟩) := by
  rw [array, if_neg (Nat.not_lt.2 h)]
  cases elements depth ((slices body).filter fun run => !run.isEmpty) <;> rfl

theorem array_of_lt {depth : Nat} (h : maxNesting < depth) (o c : Span) (body : List Nest) :
    array depth o c body = .error (.tooDeep o.start) := by
  rw [array, if_pos h]

/-- The first of some results and the others. -/
def cons {α : Type} (first : Reading α) (others : Reading (List α)) : Reading (List α) :=
  match first with
  | .error failure => .error failure
  | .ok a => others.map (a :: ·)

theorem members_nil (depth : Nat) : members depth [] = .ok [] := by rw [members]

theorem members_cons (depth : Nat) (run : List Nest) (runs : List (List Nest)) :
    members depth (run :: runs) = (member depth run).cons (members depth runs) := by
  rw [members]
  cases member depth run with
  | error failure => rfl
  | ok first => cases members depth runs <;> rfl

theorem elements_nil (depth : Nat) : elements depth [] = .ok [] := by rw [elements]

theorem elements_cons (depth : Nat) (run : List Nest) (runs : List (List Nest)) :
    elements depth (run :: runs) = (element depth run).cons (elements depth runs) := by
  rw [elements]
  cases element depth run with
  | error failure => rfl
  | ok first => cases elements depth runs <;> rfl

theorem member_nil (depth : Nat) : member depth [] = .error .mismatch := by rw [member]

theorem member_spread {n : Nest} (h : n.isKind .spread) (depth : Nat) (rest : List Nest) :
    member depth (n :: rest) = (value depth rest).map .spread := by
  rw [member.eq_def]
  simp [h]

theorem member_keyless {n : Nest} (hs : n.isKind .spread = false) (hk : n.key? = none)
    (depth : Nat) (rest : List Nest) : member depth (n :: rest) = .error .mismatch := by
  rw [member.eq_def]
  simp [hs, hk]

theorem member_single {n : Nest} {key : Option String} (hs : n.isKind .spread = false)
    (hk : n.key? = some key) (depth : Nat) :
    member depth [n] =
      if n.isShorthand then .ok (.pair key (.dynamic n.span [])) else .error .mismatch := by
  rw [member.eq_def]
  simp [hs, hk]

theorem member_pair {n next : Nest} {key : Option String} (hs : n.isKind .spread = false)
    (hk : n.key? = some key) (hc : next.isKind .colon) (depth : Nat) (more : List Nest) :
    member depth (n :: next :: more) = (value depth more).map (.pair key) := by
  rw [member.eq_def]
  simp [hs, hk, hc]

theorem member_method {n next : Nest} {key : Option String} (hs : n.isKind .spread = false)
    (hk : n.key? = some key) (hc : next.isKind .colon = false)
    (hg : next.isGroup .parenthesis) (depth : Nat) (more : List Nest) :
    member depth (n :: next :: more) =
      (if more.head?.any (·.isGroup .brace) then dynamic depth next.span.start more
        else .error .mismatch).map (.pair key) := by
  rw [member.eq_def]
  by_cases hb : more.head?.any (·.isGroup .brace) <;> simp [hs, hk, hc, hg, hb]
  rfl

theorem member_other {n next : Nest} {key : Option String} (hs : n.isKind .spread = false)
    (hk : n.key? = some key) (hc : next.isKind .colon = false)
    (hg : next.isGroup .parenthesis = false) (depth : Nat) (more : List Nest) :
    member depth (n :: next :: more) = .error .mismatch := by
  rw [member.eq_def]
  simp [hs, hk, hc, hg]

theorem literal_token (depth : Nat) (t : Token) :
    literal depth (.token t) =
      match (Nest.token t).constant? with
      | some expr => .ok expr
      | none => .error .mismatch := by
  rw [literal] <;> simp

theorem literal_parenthesis (depth : Nat) (o c : Span) (body : List Nest) :
    literal depth (.group .parenthesis o c body) = .error .mismatch := by
  rw [literal] <;> simp [Nest.constant?]

theorem found_nil (depth : Nat) : found depth [] = .ok [] := by rw [found]

theorem found_token (depth : Nat) (t : Token) : found depth [.token t] = .ok [] := by
  rw [found, found]

/-- The objects of two runs, or the first group that is too deep. -/
def both (first second : Except Nat (List Expr)) : Except Nat (List Expr) :=
  match first with
  | .error start => .error start
  | .ok inside =>
    match second with
    | .error start => .error start
    | .ok others => .ok (inside ++ others)

@[simp] theorem both_nil (r : Except Nat (List Expr)) : both (.ok []) r = r := by
  cases r <;> rfl

@[simp] theorem both_nil_right (r : Except Nat (List Expr)) : both r (.ok []) = r := by
  cases r <;> simp [both]

theorem both_assoc (p q r : Except Nat (List Expr)) : both (both p q) r = both p (both q r) := by
  cases p <;> cases q <;> cases r <;> simp [both]

theorem found_cons (depth : Nat) (n : Nest) (ns : List Nest) :
    found depth (n :: ns) = both (found depth [n]) (found depth ns) := by
  cases n with
  | token t => rw [found_token, found, both_nil]
  | group d o c body =>
    rw [found, found, found_nil]
    dsimp only
    generalize (if d = .brace then _ else found depth body : Except Nat (List Expr)) = here
    cases here <;> cases found depth ns <;> simp [both]

theorem found_group (depth : Nat) (d : Delimiter) (o c : Span) (body : List Nest) :
    found depth [.group d o c body] =
      if d = .brace then
        match object depth o c body with
        | .ok expr => .ok [expr]
        | .error .mismatch => found depth body
        | .error (.tooDeep start) => .error start
      else found depth body := by
  rw [found, found_nil]
  dsimp only
  generalize (if d = .brace then _ else found depth body : Except Nat (List Expr)) = here
  cases here <;> simp

theorem span_object {depth : Nat} {o c : Span} {body : List Nest} {expr : Expr}
    (h : object depth o c body = .ok expr) : expr.span = ⟨o.start, c.stop⟩ := by
  rw [object] at h
  split at h
  · cases h
  · split at h
    · cases h
    · obtain rfl := Except.ok.inj h
      rfl

end Reading

end DesignTokens.Script
