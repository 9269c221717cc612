import DesignTokens.Proofs.Script.Balance
import DesignTokens.Proofs.Script.NestReading

/-! # Moving a script

Reading looks at the places of tokens only to report them: where every offset is moved by one
function, the same is read, with its offsets moved. -/
namespace DesignTokens.Script
open Text (Span)
open Nest (weight weights weights_cons weight_pos slices slicesWeight slicesWeight_slices
  dropEmptyLast slicesWeight_dropEmptyLast_le slicesWeight_filter_le)

def Span.relocate (f : Nat → Nat) (s : Span) : Span := ⟨f s.start, f s.stop⟩

def Token.relocate (f : Nat → Nat) (t : Token) : Token := ⟨t.kind, Span.relocate f t.span⟩

mutual

def Nest.relocate (f : Nat → Nat) : Nest → Nest
  | .token t => .token (t.relocate f)
  | .group d o c body => .group d (Span.relocate f o) (Span.relocate f c) (Nest.relocateAll f body)

def Nest.relocateAll (f : Nat → Nat) : List Nest → List Nest
  | [] => []
  | n :: ns => Nest.relocate f n :: Nest.relocateAll f ns

end

mutual

def Expr.relocate (f : Nat → Nat) : Expr → Expr
  | .object s members => .object (Span.relocate f s) (Member.relocateAll f members)
  | .array s items => .array (Span.relocate f s) (Expr.relocateAll f items)
  | .string s value => .string (Span.relocate f s) value
  | .template s value => .template (Span.relocate f s) value
  | .number s value => .number (Span.relocate f s) value
  | .dynamic s found => .dynamic (Span.relocate f s) (Expr.relocateAll f found)

def Expr.relocateAll (f : Nat → Nat) : List Expr → List Expr
  | [] => []
  | e :: es => Expr.relocate f e :: Expr.relocateAll f es

def Member.relocate (f : Nat → Nat) : Member → Member
  | .pair key value => .pair key (Expr.relocate f value)
  | .spread value => .spread (Expr.relocate f value)

def Member.relocateAll (f : Nat → Nat) : List Member → List Member
  | [] => []
  | m :: ms => Member.relocate f m :: Member.relocateAll f ms

end

def Failure.relocate (f : Nat → Nat) : Failure → Failure
  | .mismatch => .mismatch
  | .tooDeep start => .tooDeep (f start)

/-- A result with its offsets moved. -/
def Reading.relocate {α : Type} (f : Nat → Nat) (g : α → α) (r : Reading α) : Reading α :=
  (r.map g).mapError (Failure.relocate f)

/-- Object literals, or the place of a group that is too deep, with their offsets moved. -/
def Reading.relocateFound (f : Nat → Nat) (r : Except Nat (List Expr)) : Except Nat (List Expr) :=
  (r.map (Expr.relocateAll f)).mapError f

namespace Nest
variable (f : Nat → Nat)

theorem relocateAll_eq_map (ns : List Nest) : relocateAll f ns = ns.map (relocate f) := by
  induction ns with
  | nil => rfl
  | cons n ns ih => rw [relocateAll, ih, List.map_cons]

theorem relocate_token (t : Token) : relocate f (.token t) = .token (t.relocate f) := rfl

theorem relocate_group (d : Delimiter) (o c : Span) (body : List Nest) :
    relocate f (.group d o c body) =
      .group d (Span.relocate f o) (Span.relocate f c) (body.map (relocate f)) := by
  rw [relocate, relocateAll_eq_map]

@[simp] theorem isKind_relocate (n : Nest) (kind : TokenKind) :
    (relocate f n).isKind kind = n.isKind kind := by
  cases n with
  | token t => rfl
  | group d o c body => rw [relocate_group]; rfl

@[simp] theorem key?_relocate (n : Nest) : (relocate f n).key? = n.key? := by
  cases n with
  | token t =>
    obtain ⟨kind, span⟩ := t
    cases kind <;> rfl
  | group d o c body =>
    rw [relocate_group]
    cases d <;> rfl

@[simp] theorem isShorthand_relocate (n : Nest) : (relocate f n).isShorthand = n.isShorthand := by
  cases n with
  | token t =>
    obtain ⟨kind, span⟩ := t
    cases kind <;> rfl
  | group d o c body => rw [relocate_group]; rfl

@[simp] theorem isGroup_relocate (n : Nest) (d : Delimiter) :
    (relocate f n).isGroup d = n.isGroup d := by
  cases n with
  | token t => rfl
  | group d o c body => rw [relocate_group]; rfl

@[simp] theorem span_relocate (n : Nest) : (relocate f n).span = Span.relocate f n.span := by
  cases n with
  | token t => rfl
  | group d o c body => rw [relocate_group]; rfl

private theorem constant?_relocate (t : Token) :
    (Nest.token (t.relocate f)).constant? = (Nest.token t).constant?.map (Expr.relocate f) := by
  obtain ⟨kind, span⟩ := t
  cases kind with
  | template value => cases value <;> rfl
  | _ => rfl

theorem slices_relocate (ns : List Nest) :
    slices (ns.map (relocate f)) = (slices ns).map (List.map (relocate f)) := by
  induction ns with
  | nil => rfl
  | cons n ns ih =>
    rw [List.map_cons, slices, slices, isKind_relocate, ih]
    split
    · rfl
    · cases slices ns <;> rfl

private theorem dropEmptyLast_relocate (runs : List (List Nest)) :
    dropEmptyLast (runs.map (List.map (relocate f))) =
      (dropEmptyLast runs).map (List.map (relocate f)) := by
  fun_induction dropEmptyLast runs with
  | case1 => rfl
  | case2 => rfl
  | case3 slice rest hne ih =>
    rw [List.map_cons, dropEmptyLast, ih]
    · rfl
    · intro hs hr
      exact hne (List.map_eq_nil_iff.1 hs) (List.map_eq_nil_iff.1 hr)

private theorem filter_relocate (runs : List (List Nest)) :
    (runs.map (List.map (relocate f))).filter (fun run => !run.isEmpty) =
      (runs.filter fun run => !run.isEmpty).map (List.map (relocate f)) := by
  rw [List.filter_map]
  congr 2
  funext run
  simp

private theorem takeWhile_relocate (kind : TokenKind) (ns : List Nest) :
    (ns.map (relocate f)).takeWhile (fun n => !n.isKind kind) =
      (ns.takeWhile fun n => !n.isKind kind).map (relocate f) := by
  rw [List.takeWhile_map]
  congr 2
  funext n
  simp

private theorem any_relocate (kind : TokenKind) (ns : List Nest) :
    (ns.map (relocate f)).any (·.isKind kind) = ns.any (·.isKind kind) := by
  rw [List.any_map]
  congr 1
  funext n
  simp

mutual

theorem tokens_relocate (n : Nest) : (relocate f n).tokens = n.tokens.map (Token.relocate f) :=
  match n with
  | token t => rfl
  | group d o c body => by
    rw [relocate_group, tokens_group, tokens_group, tokensOf_relocate body, List.map_cons,
      List.map_append]
    rfl

theorem tokensOf_relocate (ns : List Nest) :
    tokensOf (ns.map (relocate f)) = (tokensOf ns).map (Token.relocate f) :=
  match ns with
  | [] => rfl
  | n :: ns => by
    rw [List.map_cons, tokensOf_cons, tokensOf_cons, tokens_relocate n, tokensOf_relocate ns,
      List.map_append]

end

mutual

theorem isProper_relocate (n : Nest) : (relocate f n).IsProper ↔ n.IsProper :=
  match n with
  | token t => by
    rw [relocate_token, isProper_token, isProper_token]
    rfl
  | group d o c body => by
    rw [relocate_group, isProper_group, isProper_group, areProper_relocate body]

theorem areProper_relocate (ns : List Nest) : AreProper (ns.map (relocate f)) ↔ AreProper ns :=
  match ns with
  | [] => Iff.rfl
  | n :: ns => by
    rw [List.map_cons, areProper_cons, areProper_cons, isProper_relocate n, areProper_relocate ns]

end

end Nest

/-- Tokens are balanced wherever they stand. -/
theorem Balanced.of_relocate {f : Nat → Nat} {ts us : List Token} (h : Balanced us)
    (hu : ts.map (Token.relocate f) = us) : Balanced ts := by
  induction h generalizing ts with
  | nil =>
    rw [List.map_eq_nil_iff.1 hu]
    exact .nil
  | token ht _ ih =>
    obtain ⟨t, rest, rfl, rfl, hrest⟩ := List.map_eq_cons_iff.1 hu
    exact .token ht (ih hrest)
  | group _ _ ihi ih =>
    obtain ⟨⟨opener, o⟩, rest, rfl, ho, hrest⟩ := List.map_eq_cons_iff.1 hu
    obtain ⟨inside, tail, rfl, hinside, htail⟩ := List.map_eq_append_iff.1 hrest
    obtain ⟨⟨closer, c⟩, after, rfl, hc, hafter⟩ := List.map_eq_cons_iff.1 htail
    obtain rfl := congrArg Token.kind ho
    obtain rfl := congrArg Token.kind hc
    exact .group (ihi hinside) (ih hafter)

namespace Expr
variable (f : Nat → Nat)

theorem relocateAll_eq_map (es : List Expr) : relocateAll f es = es.map (relocate f) := by
  induction es with
  | nil => rfl
  | cons e es ih => rw [relocateAll, ih, List.map_cons]

@[simp] theorem span_relocate (e : Expr) : (relocate f e).span = Span.relocate f e.span := by
  cases e <;> rfl

end Expr

theorem Member.relocateAll_eq_map (f : Nat → Nat) (ms : List Member) :
    relocateAll f ms = ms.map (relocate f) := by
  induction ms with
  | nil => rfl
  | cons m ms ih => rw [relocateAll, ih, List.map_cons]

namespace Reading
variable {f : Nat → Nat}

theorem relocate_map {α β : Type} {g : α → α} {g' : β → β} {h h' : α → β}
    (hc : ∀ a, g' (h a) = h' (g a)) (r : Reading α) :
    Reading.relocate f g' (r.map h) = (Reading.relocate f g r).map h' := by
  cases r with
  | error failure => rfl
  | ok a => exact congrArg Except.ok (hc a)

theorem relocate_cons {α : Type} {g : α → α} (first : Reading α) (others : Reading (List α)) :
    Reading.relocate f (List.map g) (first.cons others) =
      (Reading.relocate f g first).cons (Reading.relocate f (List.map g) others) := by
  cases first with
  | error failure => rfl
  | ok a => cases others <;> rfl

theorem relocateFound_both (p q : Except Nat (List Expr)) :
    relocateFound f (both p q) = both (relocateFound f p) (relocateFound f q) := by
  cases p with
  | error start => rfl
  | ok inside =>
    cases q with
    | error start => rfl
    | ok others =>
      simp [both, relocateFound, Except.map, Except.mapError, Expr.relocateAll_eq_map]

end Reading

namespace Reading
variable (f : Nat → Nat)

mutual

theorem object_relocate (d : Nat) (o c : Span) (body : List Nest) :
    object d (Span.relocate f o) (Span.relocate f c) (body.map (Nest.relocate f)) =
      (object d o c body).relocate f (Expr.relocate f) := by
  have hm := members_relocate d (dropEmptyLast (slices body))
  rcases Nat.lt_or_ge maxNesting d with hd | hd
  · rw [object_of_lt hd, object_of_lt hd]
    rfl
  · rw [object_of_le hd, object_of_le hd, Nest.slices_relocate, Nest.dropEmptyLast_relocate, hm]
    refine (relocate_map (fun members => ?_) _).symm
    rw [Expr.relocate, Member.relocateAll_eq_map]
    rfl
termination_by 8 * (weights body + 1) + 5
decreasing_by
  have := slicesWeight_dropEmptyLast_le (slices body)
  rw [slicesWeight_slices] at this
  omega

theorem members_relocate (d : Nat) (runs : List (List Nest)) :
    members d (runs.map (List.map (Nest.relocate f))) =
      (members d runs).relocate f (List.map (Member.relocate f)) := by
  match runs with
  | [] =>
    rw [List.map_nil, members_nil]
    rfl
  | run :: rest =>
    rw [List.map_cons, members_cons, members_cons, member_relocate d run,
      members_relocate d rest, relocate_cons]
termination_by 8 * slicesWeight runs + 4
decreasing_by
  all_goals
    simp only [slicesWeight]
    omega

theorem member_relocate (d : Nat) (run : List Nest) :
    member d (run.map (Nest.relocate f)) =
      (member d run).relocate f (Member.relocate f) := by
  match run with
  | [] =>
    rw [List.map_nil, member_nil]
    rfl
  | first :: rest =>
    rw [List.map_cons]
    by_cases hs : first.isKind .spread
    · rw [member_spread hs, member_spread (by simpa using hs), value_relocate d rest]
      refine (relocate_map (fun e => ?_) _).symm
      rfl
    have hs : first.isKind .spread = false := by simpa using hs
    have hs' : (first.relocate f).isKind .spread = false := by simpa using hs
    cases hkey : first.key? with
    | none =>
      rw [member_keyless hs hkey, member_keyless hs' (by simpa using hkey)]
      rfl
    | some key =>
      have hkey' : (first.relocate f).key? = some key := by simpa using hkey
      match rest with
      | [] =>
        rw [List.map_nil, member_single hs hkey, member_single hs' hkey',
          Nest.isShorthand_relocate, Nest.span_relocate]
        split <;> rfl
      | next :: more =>
        rw [List.map_cons]
        by_cases hc : next.isKind .colon
        · rw [member_pair hs hkey hc, member_pair hs' hkey' (by simpa using hc),
            value_relocate d more]
          refine (relocate_map (fun e => ?_) _).symm
          rfl
        have hc : next.isKind .colon = false := by simpa using hc
        have hc' : (next.relocate f).isKind .colon = false := by simpa using hc
        by_cases hg : next.isGroup .parenthesis
        · have hblock : (more.map (Nest.relocate f)).head?.any (·.isGroup .brace) =
              more.head?.any (·.isGroup .brace) := by
            cases more <;> simp
          rw [member_method hs hkey hc hg, member_method hs' hkey' hc' (by simpa using hg),
            hblock, Nest.span_relocate]
          have hd := dynamic_relocate d next.span.start more
          split
          · rw [Span.relocate, hd]
            refine (relocate_map (fun e => ?_) _).symm
            rfl
          · rfl
        · have hg : next.isGroup .parenthesis = false := by simpa using hg
          rw [member_other hs hkey hc hg, member_other hs' hkey' hc' (by simpa using hg)]
          rfl
termination_by 8 * (weights run + 1) + 3
decreasing_by
  all_goals
    have := weight_pos first
    simp only [weights_cons]
    omega

theorem array_relocate (d : Nat) (o c : Span) (body : List Nest) :
    array d (Span.relocate f o) (Span.relocate f c) (body.map (Nest.relocate f)) =
      (array d o c body).relocate f (Expr.relocate f) := by
  have hm := elements_relocate d ((slices body).filter fun run => !run.isEmpty)
  rcases Nat.lt_or_ge maxNesting d with hd | hd
  · rw [array_of_lt hd, array_of_lt hd]
    rfl
  · rw [array_of_le hd, array_of_le hd, Nest.slices_relocate, Nest.filter_relocate, hm]
    refine (relocate_map (fun items => ?_) _).symm
    rw [Expr.relocate, Expr.relocateAll_eq_map]
    rfl
termination_by 8 * (weights body + 1) + 5
decreasing_by
  have := slicesWeight_filter_le (fun run => !run.isEmpty) (slices body)
  rw [slicesWeight_slices] at this
  omega

theorem elements_relocate (d : Nat) (runs : List (List Nest)) :
    elements d (runs.map (List.map (Nest.relocate f))) =
      (elements d runs).relocate f (List.map (Expr.relocate f)) := by
  match runs with
  | [] =>
    rw [List.map_nil, elements_nil]
    rfl
  | run :: rest =>
    rw [List.map_cons, elements_cons, elements_cons, element_relocate d run,
      elements_relocate d rest, relocate_cons]
termination_by 8 * slicesWeight runs + 4
decreasing_by
  all_goals
    simp only [slicesWeight]
    omega

theorem element_relocate (d : Nat) (run : List Nest) :
    element d (run.map (Nest.relocate f)) = (element d run).relocate f (Expr.relocate f) := by
  match run with
  | [] =>
    rw [List.map_nil, element]
    rfl
  | first :: rest =>
    have hv := value_relocate d (first :: rest)
    rw [List.map_cons] at hv ⊢
    rw [element, element, Nest.isKind_relocate, Nest.span_relocate, value_relocate d rest, hv]
    split
    · refine (relocate_map (fun inner => ?_) _).symm
      rw [Expr.relocate, Expr.relocateAll_eq_map, Expr.span_relocate]
      rfl
    · rfl
termination_by 8 * (weights run + 1) + 3
decreasing_by
  all_goals
    have := weight_pos first
    simp only [weights_cons]
    omega

theorem value_relocate (d : Nat) (run : List Nest) :
    value d (run.map (Nest.relocate f)) = (value d run).relocate f (Expr.relocate f) := by
  match run with
  | [] =>
    rw [List.map_nil, value]
    rfl
  | first :: rest =>
    have hdyn := dynamic_relocate d first.span.start (first :: rest)
    have hlit := literal_relocate d first
    rw [List.map_cons] at hdyn ⊢
    rw [value, value, hlit, Nest.span_relocate, Span.relocate, hdyn]
    cases literal d first with
    | error failure => cases failure <;> rfl
    | ok expr => cases rest <;> rfl
termination_by 8 * (weights run + 1) + 2
decreasing_by
  all_goals
    have := weight_pos first
    simp only [weights_cons]
    omega

theorem literal_relocate (d : Nat) (n : Nest) :
    literal d (n.relocate f) = (literal d n).relocate f (Expr.relocate f) := by
  match n with
  | .token t =>
    rw [Nest.relocate_token, literal_token, literal_token, Nest.constant?_relocate]
    cases (Nest.token t).constant? <;> rfl
  | .group .brace o c body =>
    rw [Nest.relocate_group, literal, literal, object_relocate]
  | .group .bracket o c body =>
    rw [Nest.relocate_group, literal, literal, array_relocate]
  | .group .parenthesis o c body =>
    rw [Nest.relocate_group, literal_parenthesis, literal_parenthesis]
    rfl
termination_by 8 * weight n + 6
decreasing_by
  all_goals
    simp only [weight]
    omega

theorem dynamic_relocate (d start : Nat) (run : List Nest) :
    dynamic d (f start) (run.map (Nest.relocate f)) =
      (dynamic d start run).relocate f (Expr.relocate f) := by
  have hf := found_relocate (d + 1) (run.takeWhile fun n => !n.isKind .semicolon)
  rw [dynamic, dynamic, List.getLast?_map, Nest.takeWhile_relocate, hf, Nest.any_relocate]
  cases run.getLast? with
  | none => rfl
  | some last =>
    cases found (d + 1) (run.takeWhile fun n => !n.isKind .semicolon) with
    | error s => rfl
    | ok objects =>
      simp only [Option.map_some, relocateFound, Except.map, Except.mapError,
        Nest.span_relocate]
      split <;> rfl
termination_by 8 * (weights run + 1) + 1
decreasing_by
  have := weights_takeWhile_le (fun n => !n.isKind .semicolon) run
  omega

theorem found_relocate (d : Nat) (ns : List Nest) :
    found d (ns.map (Nest.relocate f)) = relocateFound f (found d ns) := by
  match ns with
  | [] =>
    rw [List.map_nil, found_nil]
    rfl
  | .token t :: rest =>
    rw [List.map_cons, Nest.relocate_token, found_cons, found_cons d (.token t), found_token,
      found_token, found_relocate d rest, relocateFound_both]
    rfl
  | .group delimiter o c body :: rest =>
    have hrest := found_relocate d rest
    have hb := found_relocate d body
    have ho := object_relocate d o c body
    rw [List.map_cons, Nest.relocate_group, found_cons, found_cons d (.group delimiter o c body),
      found_group, found_group, hrest, ho, hb, relocateFound_both]
    congr 1
    split
    · cases object d o c body with
      | error failure => cases failure <;> rfl
      | ok expr => rfl
    · rfl
termination_by 8 * (weights ns + 1) + 0
decreasing_by
  all_goals
    simp only [weights_cons, weight]
    omega

end

end Reading

def Fault.relocate (f : Nat → Nat) : Fault → Fault
  | .unterminatedLiteral literal span => .unterminatedLiteral literal (Span.relocate f span)
  | .mismatchedDelimiter fitting span => .mismatchedDelimiter fitting (Span.relocate f span)
  | .unclosedDelimiter span => .unclosedDelimiter (Span.relocate f span)
  | .nestingTooDeep start => .nestingTooDeep (f start)

/-- What comes of a script, or what is wrong with it, with its offsets moved. -/
def Fault.relocateOr {α : Type} (f : Nat → Nat) (g : α → α) (r : Except Fault α) :
    Except Fault α :=
  (r.map g).mapError (Fault.relocate f)

theorem unterminated?_relocate (f : Nat → Nat) (ts : List Token) :
    unterminated? (ts.map (Token.relocate f)) = (unterminated? ts).map (Fault.relocate f) := by
  induction ts with
  | nil => rfl
  | cons t ts ih =>
    obtain ⟨kind, span⟩ := t
    cases kind with
    | unterminated literal => rfl
    | _ => exact ih

namespace Nest
variable (f : Nat → Nat)

def Pending.relocate (p : Pending) : Pending :=
  ⟨p.delimiter, Span.relocate f p.opening, p.before.map (Nest.relocate f)⟩

private theorem build_relocate (pending : List Pending) (done : List Nest) (ts : List Token) :
    build (pending.map (Pending.relocate f)) (done.map (relocate f))
        (ts.map (Token.relocate f)) =
      Fault.relocateOr f (List.map (relocate f)) (build pending done ts) := by
  induction ts generalizing pending done with
  | nil =>
    cases pending with
    | nil => exact congrArg Except.ok List.map_reverse.symm
    | cons innermost outer => rfl
  | cons t ts ih =>
    obtain ⟨kind, span⟩ := t
    cases kind with
    | opener d => exact ih (⟨d, span, done⟩ :: pending) []
    | closer d =>
      cases pending with
      | nil => rfl
      | cons innermost outer =>
        have hgroup := ih outer
          (.group innermost.delimiter innermost.opening span done.reverse :: innermost.before)
        rw [List.map_cons, relocate_group, List.map_reverse] at hgroup
        by_cases hd : innermost.delimiter = d
        · subst hd
          simp only [List.map_cons, build, Pending.relocate, Token.relocate, if_true]
          exact hgroup
        · simp only [List.map_cons, build, Pending.relocate, Token.relocate, if_neg hd]
          rfl
    | _ => exact ih pending (.token _ :: done)

theorem ofTokens_relocate (ts : List Token) :
    ofTokens (ts.map (Token.relocate f)) =
      Fault.relocateOr f (List.map (relocate f)) (ofTokens ts) :=
  build_relocate f [] [] ts

end Nest
end DesignTokens.Script
