import DesignTokens.Script.Document
import Mathlib.Logic.Relation

/-! # What the parser attempts

A run of the parser is a tree of calls, and which calls are made depends on what the calls before
them gave. A call is refused exactly if one is made in its course that is attempted too deep: no
failure of this kind is taken for something that may be read in another way. -/
namespace DesignTokens.Script
open DesignTokens.Script.Parser (levelAfter skipBalanced endsValue atValueEnd Left nextItem? key?)

/-- A call of one of the readers. -/
inductive Call
  | roots (ts : List Token)
  | object (depth : Nat) (ts : List Token)
  | members (depth : Nat) (ts : List Token)
  | member (depth : Nat) (ts : List Token)
  | method (depth : Nat) (ts : List Token)
  | array (depth : Nat) (ts : List Token)
  | items (depth : Nat) (ts : List Token)
  | item (depth : Nat) (ts : List Token)
  | value (depth : Nat) (ts : List Token)
  | literal (depth : Nat) (ts : List Token)
  | dynamic (depth start : Nat) (ts : List Token)
  | run (depth level stop : Nat) (ts : List Token)

namespace Call

/-- The call gives nothing but the offset of a group that is too deep. -/
def Refuses (start : Nat) : Call → Prop
  | roots ts => Parser.roots ts = .error start
  | object depth ts => Parser.object depth ts = .error (.tooDeep start)
  | members depth ts => Parser.members depth ts = .error (.tooDeep start)
  | member depth ts => Parser.member depth ts = .error (.tooDeep start)
  | method depth ts => Parser.method depth ts = .error (.tooDeep start)
  | array depth ts => Parser.array depth ts = .error (.tooDeep start)
  | items depth ts => Parser.items depth ts = .error (.tooDeep start)
  | item depth ts => Parser.item depth ts = .error (.tooDeep start)
  | value depth ts => Parser.value depth ts = .error (.tooDeep start)
  | literal depth ts => Parser.literal depth ts = .error (.tooDeep start)
  | dynamic depth first ts => Parser.dynamic depth first ts = .error (.tooDeep start)
  | run depth level stop ts => Parser.run depth level stop ts = .error (.tooDeep start)

/-- An object or an array is attempted at the token, deeper than the limit. -/
def IsTooDeep (t : Token) (c : Call) : Prop :=
  ∃ depth ts, maxNesting < depth ∧ (c = object depth (t :: ts) ∨ c = array depth (t :: ts))

/-- A call makes another one, once the calls that it made before gave what they gave. -/
inductive Makes : Call → Call → Prop
  | object {t : Token} {ts : List Token} (h : t.kind = .opener .brace) :
      Makes (roots (t :: ts)) (object 0 (t :: ts))
  | rootsBehindToken {t : Token} {ts : List Token} (h : t.kind ≠ .opener .brace) :
      Makes (roots (t :: ts)) (roots ts)
  | rootsInBlock {t : Token} {ts : List Token} (h : t.kind = .opener .brace)
      (ho : Parser.object 0 (t :: ts) = .error .mismatch) : Makes (roots (t :: ts)) (roots ts)
  | rootsBehindObject {t : Token} {ts : List Token} {expr : Expr} {rest : Rest (t :: ts)}
      (h : t.kind = .opener .brace) (ho : Parser.object 0 (t :: ts) = .ok (expr, rest)) :
      Makes (roots (t :: ts)) (roots rest.1)
  | members {depth : Nat} {t : Token} {ts : List Token} (hd : depth ≤ maxNesting)
      (h : t.kind = .opener .brace) : Makes (object depth (t :: ts)) (members depth ts)
  | firstMember {depth : Nat} {t : Token} {ts : List Token} (h : t.kind ≠ .closer .brace) :
      Makes (members depth (t :: ts)) (member depth (t :: ts))
  | otherMembers {depth : Nat} {t : Token} {ts : List Token} {first : Member}
      {rest : Rest (t :: ts)} {more : Left rest.1} (h : t.kind ≠ .closer .brace)
      (hf : Parser.member depth (t :: ts) = .ok (first, rest))
      (hn : nextItem? .brace rest.1 = some more) :
      Makes (members depth (t :: ts)) (members depth more.1)
  | spreadMember {depth : Nat} {t : Token} {ts : List Token} (h : t.kind = .spread) :
      Makes (member depth (t :: ts)) (value depth ts)
  | pair {depth : Nat} {t next : Token} {ts more : List Token} {key : Option String}
      {hlt : (next :: more).length < (t :: ts).length} (h : t.kind ≠ .spread)
      (hk : key? (t :: ts) = some (key, ⟨next :: more, hlt⟩)) (hc : next.kind = .colon) :
      Makes (member depth (t :: ts)) (value depth more)
  | method {depth : Nat} {t next : Token} {ts more : List Token} {key : Option String}
      {hlt : (next :: more).length < (t :: ts).length} (h : t.kind ≠ .spread)
      (hk : key? (t :: ts) = some (key, ⟨next :: more, hlt⟩))
      (hp : next.kind = .opener .parenthesis) :
      Makes (member depth (t :: ts)) (method depth (next :: more))
  | methodBody {depth : Nat} {t next : Token} {ts body : List Token}
      {hlt : (next :: body).length < (t :: ts).length}
      (hp : skipBalanced 0 (t :: ts) = some ⟨next :: body, hlt⟩)
      (hb : next.kind = .opener .brace) :
      Makes (method depth (t :: ts)) (dynamic depth t.span.start (next :: body))
  | items {depth : Nat} {t : Token} {ts : List Token} (hd : depth ≤ maxNesting)
      (h : t.kind = .opener .bracket) : Makes (array depth (t :: ts)) (items depth ts)
  | itemsBehindHole {depth : Nat} {t : Token} {ts : List Token} (h : t.kind = .comma) :
      Makes (items depth (t :: ts)) (items depth ts)
  | firstItem {depth : Nat} {t : Token} {ts : List Token} (h : t.kind ≠ .closer .bracket)
      (hc : t.kind ≠ .comma) : Makes (items depth (t :: ts)) (item depth (t :: ts))
  | otherItems {depth : Nat} {t : Token} {ts : List Token} {first : Expr} {rest : Rest (t :: ts)}
      {more : Left rest.1} (h : t.kind ≠ .closer .bracket) (hc : t.kind ≠ .comma)
      (hf : Parser.item depth (t :: ts) = .ok (first, rest))
      (hn : nextItem? .bracket rest.1 = some more) :
      Makes (items depth (t :: ts)) (items depth more.1)
  | spreadItem {depth : Nat} {t : Token} {ts : List Token} (h : t.kind = .spread) :
      Makes (item depth (t :: ts)) (value depth ts)
  | plainItem {depth : Nat} {t : Token} {ts : List Token} (h : t.kind ≠ .spread) :
      Makes (item depth (t :: ts)) (value depth (t :: ts))
  | literal {depth : Nat} {t : Token} {ts : List Token} :
      Makes (value depth (t :: ts)) (literal depth (t :: ts))
  | dynamicForMismatch {depth : Nat} {t : Token} {ts : List Token}
      (hl : Parser.literal depth (t :: ts) = .error .mismatch) :
      Makes (value depth (t :: ts)) (dynamic depth t.span.start (t :: ts))
  | dynamicForMore {depth : Nat} {t : Token} {ts : List Token} {expr : Expr} {rest : Rest (t :: ts)}
      (hl : Parser.literal depth (t :: ts) = .ok (expr, rest)) (he : atValueEnd rest.1 = false) :
      Makes (value depth (t :: ts)) (dynamic depth t.span.start (t :: ts))
  | literalObject {depth : Nat} {t : Token} {ts : List Token} (h : t.kind = .opener .brace) :
      Makes (literal depth (t :: ts)) (object (depth + 1) (t :: ts))
  | literalArray {depth : Nat} {t : Token} {ts : List Token} (h : t.kind = .opener .bracket) :
      Makes (literal depth (t :: ts)) (array (depth + 1) (t :: ts))
  | run {depth start : Nat} {ts : List Token} : Makes (dynamic depth start ts) (run depth 0 start ts)
  | objectInRun {depth level stop : Nat} {t : Token} {ts : List Token}
      (h : t.kind = .opener .brace) :
      Makes (run depth level stop (t :: ts)) (object (depth + 1) (t :: ts))
  | runInBlock {depth level stop : Nat} {t : Token} {ts : List Token} (h : t.kind = .opener .brace)
      (ho : Parser.object (depth + 1) (t :: ts) = .error .mismatch) :
      Makes (run depth level stop (t :: ts)) (run depth (level + 1) t.span.stop ts)
  | runBehindObject {depth level stop : Nat} {t : Token} {ts : List Token} {expr : Expr}
      {rest : Rest (t :: ts)} (h : t.kind = .opener .brace)
      (ho : Parser.object (depth + 1) (t :: ts) = .ok (expr, rest)) :
      Makes (run depth level stop (t :: ts)) (run depth level expr.span.stop rest.1)
  | runBehindToken {depth level level' stop : Nat} {t : Token} {ts : List Token}
      (h : t.kind ≠ .opener .brace) (he : ¬ (level = 0 ∧ endsValue t.kind))
      (hs : ¬ (level = 0 ∧ t.kind = .semicolon)) (hl : levelAfter level t.kind = some level') :
      Makes (run depth level stop (t :: ts)) (run depth level' t.span.stop ts)

/-- A bound for the calls in the course of a call. -/
def measure : Call → Nat
  | roots ts => 8 * ts.length + 7
  | members _ ts | items _ ts => 8 * ts.length + 5
  | member _ ts | item _ ts => 8 * ts.length + 4
  | value _ ts | method _ ts => 8 * ts.length + 3
  | dynamic _ _ ts => 8 * ts.length + 2
  | run _ _ _ ts | literal _ ts => 8 * ts.length + 1
  | object _ ts | array _ ts => 8 * ts.length

private theorem Makes.measure_lt {c c' : Call} (h : Makes c c') : c'.measure < c.measure := by
  cases h with
  | rootsBehindObject h ho | runBehindObject h ho =>
    rename_i rest
    have := rest.2
    simp only [measure, List.length_cons] at *
    omega
  | otherMembers h hf hn | otherItems h hc hf hn =>
    rename_i rest more
    have := rest.2
    have := more.2
    simp only [measure, List.length_cons] at *
    omega
  | pair h hk hc | method h hk hc | methodBody hs hc =>
    rename_i hlt
    have := hlt
    simp only [measure, List.length_cons] at *
    omega
  | _ =>
    simp only [measure, List.length_cons] at *
    omega

end Call

namespace Parser.Outcome
variable {α β : Type} {ts us : List Token} {o : Outcome α us} {failure : Failure}

theorem map_eq_error_iff {ε : Type} {f : α → β} {r : Except ε α} {e : ε} :
    r.map f = .error e ↔ r = .error e := by
  cases r <;> simp [Except.map]

theorem widen_eq_error_iff (h : us.length ≤ ts.length) :
    o.widen h = .error failure ↔ o = .error failure :=
  map_eq_error_iff

theorem mapValue_eq_error_iff (f : α → β) :
    o.mapValue f = .error failure ↔ o = .error failure :=
  map_eq_error_iff

end Parser.Outcome

namespace Call
open Parser.Outcome (map_eq_error_iff widen_eq_error_iff mapValue_eq_error_iff)
variable {c c' : Call} {start : Nat} {t : Token}

theorem IsTooDeep.refuses (h : IsTooDeep t c) : c.Refuses t.span.start := by
  obtain ⟨depth, ts, hdepth, rfl | rfl⟩ := h
  · rw [Refuses, Parser.object, if_pos hdepth]
  · rw [Refuses, Parser.array, if_pos hdepth]

/-- What is refused to a call is refused to the call that makes it. -/
theorem Makes.refuses (h : Makes c c') (hc : c'.Refuses start) : c.Refuses start := by
  -- `roots`, `value` and `run` go on after a mismatch; their cases tell a refusal from one.
  cases h with
  | object h =>
    simp only [Refuses] at hc ⊢
    rw [Parser.roots, if_pos h, hc]
  | rootsBehindToken h =>
    simp only [Refuses] at hc ⊢
    rw [Parser.roots, if_neg h, hc]
  | rootsInBlock h ho =>
    simp only [Refuses] at hc ⊢
    rw [Parser.roots, if_pos h, ho]
    exact hc
  | rootsBehindObject h ho =>
    simp only [Refuses] at hc ⊢
    rw [Parser.roots, if_pos h, ho]
    exact map_eq_error_iff.2 hc
  | members hd h =>
    simp only [Refuses] at hc ⊢
    rw [Parser.object, if_neg (Nat.not_lt.2 hd), if_pos h, hc]
  | firstMember h =>
    simp only [Refuses] at hc ⊢
    rw [Parser.members, if_neg h, hc]
  | otherMembers h hf hn =>
    simp only [Refuses] at hc ⊢
    rw [Parser.members, if_neg h, hf]
    dsimp only
    rw [hn]
    dsimp only
    rw [hc]
  | spreadMember h =>
    simp only [Refuses] at hc ⊢
    rw [Parser.member, if_pos h, widen_eq_error_iff, mapValue_eq_error_iff, hc]
  | pair h hk hcolon =>
    simp only [Refuses] at hc ⊢
    rw [Parser.member, if_neg h, hk]
    dsimp only
    rw [if_pos hcolon, widen_eq_error_iff, mapValue_eq_error_iff, hc]
  | method h hk hp =>
    simp only [Refuses] at hc ⊢
    rw [Parser.member, if_neg h, hk]
    dsimp only
    rw [if_neg (by simp [hp]), if_pos hp, widen_eq_error_iff, mapValue_eq_error_iff, hc]
  | methodBody hp hb =>
    simp only [Refuses] at hc ⊢
    rw [Parser.method, hp]
    dsimp only
    rw [if_pos hb, widen_eq_error_iff, hc]
  | items hd h =>
    simp only [Refuses] at hc ⊢
    rw [Parser.array, if_neg (Nat.not_lt.2 hd), if_pos h, hc]
  | itemsBehindHole h =>
    simp only [Refuses] at hc ⊢
    rw [Parser.items, if_neg (by simp [h]), if_pos h, widen_eq_error_iff, hc]
  | firstItem h hcomma =>
    simp only [Refuses] at hc ⊢
    rw [Parser.items, if_neg h, if_neg hcomma, hc]
  | otherItems h hcomma hf hn =>
    simp only [Refuses] at hc ⊢
    rw [Parser.items, if_neg h, if_neg hcomma, hf]
    dsimp only
    rw [hn]
    dsimp only
    rw [hc]
  | spreadItem h =>
    simp only [Refuses] at hc ⊢
    rw [Parser.item, if_pos h, widen_eq_error_iff, mapValue_eq_error_iff, hc]
  | plainItem h =>
    simp only [Refuses] at hc ⊢
    rw [Parser.item, if_neg h, hc]
  | literal =>
    simp only [Refuses] at hc ⊢
    rw [Parser.value, hc]
  | dynamicForMismatch hl =>
    simp only [Refuses] at hc ⊢
    rw [Parser.value, hl]
    exact hc
  | dynamicForMore hl he =>
    simp only [Refuses] at hc ⊢
    rw [Parser.value, hl]
    dsimp only
    rw [if_neg (by simp [he]), hc]
  | literalObject h =>
    simp only [Refuses] at hc ⊢
    rw [Parser.literal, h]
    exact hc
  | literalArray h =>
    simp only [Refuses] at hc ⊢
    rw [Parser.literal, h]
    exact hc
  | run =>
    simp only [Refuses] at hc ⊢
    rw [Parser.dynamic, hc]
  | objectInRun h =>
    simp only [Refuses] at hc ⊢
    rw [Parser.run, if_pos h, hc]
  | runInBlock h ho =>
    simp only [Refuses] at hc ⊢
    rw [Parser.run, if_pos h, ho]
    exact map_eq_error_iff.2 hc
  | runBehindObject h ho =>
    simp only [Refuses] at hc ⊢
    rw [Parser.run, if_pos h, ho]
    exact map_eq_error_iff.2 hc
  | runBehindToken h he hs hl =>
    simp only [Refuses] at hc ⊢
    rw [Parser.run, if_neg h, if_neg he, if_neg hs, hl]
    exact map_eq_error_iff.2 hc

/-- The call is too deep itself, or it makes a call that is refused in the same way. -/
def Passes (start : Nat) (c : Call) : Prop :=
  (∃ t, IsTooDeep t c ∧ t.span.start = start) ∨ ∃ c', Makes c c' ∧ c'.Refuses start

variable {depth level stop first : Nat} {ts : List Token}

private theorem passes_roots (h : Parser.roots ts = .error start) : Passes start (roots ts) := by
  cases ts with
  | nil => simp [Parser.roots] at h
  | cons t ts =>
    rw [Parser.roots] at h
    split at h
    · rename_i hbrace
      split at h
      · rename_i ho
        obtain rfl := Except.error.inj h
        exact .inr ⟨_, .object hbrace, ho⟩
      · exact .inr ⟨_, .rootsInBlock hbrace ‹_›, h⟩
      · exact .inr ⟨_, .rootsBehindObject hbrace ‹_›, map_eq_error_iff.1 h⟩
    · exact .inr ⟨_, .rootsBehindToken ‹_›, h⟩

private theorem passes_object (h : Parser.object depth ts = .error (.tooDeep start)) :
    Passes start (object depth ts) := by
  cases ts with
  | nil => simp [Parser.object] at h
  | cons t ts =>
    rw [Parser.object] at h
    split at h
    · rename_i hdepth
      obtain rfl := Failure.tooDeep.inj (Except.error.inj h)
      exact .inl ⟨t, ⟨depth, ts, hdepth, .inl rfl⟩, rfl⟩
    · rename_i hdepth
      split at h
      · split at h
        · obtain rfl := Except.error.inj h
          exact .inr ⟨_, .members (Nat.not_lt.1 hdepth) ‹_›, ‹_›⟩
        · simp at h
      · simp at h

private theorem passes_members (h : Parser.members depth ts = .error (.tooDeep start)) :
    Passes start (members depth ts) := by
  cases ts with
  | nil => simp [Parser.members] at h
  | cons t ts =>
    rw [Parser.members] at h
    split at h
    · simp at h
    · rename_i hcloser
      split at h
      · obtain rfl := Except.error.inj h
        exact .inr ⟨_, .firstMember hcloser, ‹_›⟩
      · split at h
        · simp at h
        · split at h
          · obtain rfl := Except.error.inj h
            exact .inr ⟨_, .otherMembers hcloser ‹_› ‹_›, ‹_›⟩
          · simp at h

private theorem passes_member (h : Parser.member depth ts = .error (.tooDeep start)) :
    Passes start (member depth ts) := by
  cases ts with
  | nil => simp [Parser.member] at h
  | cons t ts =>
    rw [Parser.member] at h
    split at h
    · rw [widen_eq_error_iff, mapValue_eq_error_iff] at h
      exact .inr ⟨_, .spreadMember ‹_›, h⟩
    · rename_i hspread
      split at h
      · simp at h
      · simp at h
      · rename_i hkey
        split at h
        · rw [widen_eq_error_iff, mapValue_eq_error_iff] at h
          exact .inr ⟨_, .pair hspread hkey ‹_›, h⟩
        · split at h
          · rw [widen_eq_error_iff, mapValue_eq_error_iff] at h
            exact .inr ⟨_, .method hspread hkey ‹_›, h⟩
          · split at h <;> simp at h

private theorem passes_method (h : Parser.method depth ts = .error (.tooDeep start)) :
    Passes start (method depth ts) := by
  cases ts with
  | nil => simp [Parser.method] at h
  | cons t ts =>
    rw [Parser.method] at h
    split at h
    · simp at h
    · simp at h
    · rename_i hskip
      split at h
      · rw [widen_eq_error_iff] at h
        exact .inr ⟨_, .methodBody hskip ‹_›, h⟩
      · simp at h

private theorem passes_array (h : Parser.array depth ts = .error (.tooDeep start)) :
    Passes start (array depth ts) := by
  cases ts with
  | nil => simp [Parser.array] at h
  | cons t ts =>
    rw [Parser.array] at h
    split at h
    · rename_i hdepth
      obtain rfl := Failure.tooDeep.inj (Except.error.inj h)
      exact .inl ⟨t, ⟨depth, ts, hdepth, .inr rfl⟩, rfl⟩
    · rename_i hdepth
      split at h
      · split at h
        · obtain rfl := Except.error.inj h
          exact .inr ⟨_, .items (Nat.not_lt.1 hdepth) ‹_›, ‹_›⟩
        · simp at h
      · simp at h

private theorem passes_items (h : Parser.items depth ts = .error (.tooDeep start)) :
    Passes start (items depth ts) := by
  cases ts with
  | nil => simp [Parser.items] at h
  | cons t ts =>
    rw [Parser.items] at h
    split at h
    · simp at h
    · rename_i hcloser
      split at h
      · rw [widen_eq_error_iff] at h
        exact .inr ⟨_, .itemsBehindHole ‹_›, h⟩
      · rename_i hcomma
        split at h
        · obtain rfl := Except.error.inj h
          exact .inr ⟨_, .firstItem hcloser hcomma, ‹_›⟩
        · split at h
          · simp at h
          · split at h
            · obtain rfl := Except.error.inj h
              exact .inr ⟨_, .otherItems hcloser hcomma ‹_› ‹_›, ‹_›⟩
            · simp at h

private theorem passes_item (h : Parser.item depth ts = .error (.tooDeep start)) :
    Passes start (item depth ts) := by
  cases ts with
  | nil => simp [Parser.item] at h
  | cons t ts =>
    rw [Parser.item] at h
    split at h
    · rw [widen_eq_error_iff, mapValue_eq_error_iff] at h
      exact .inr ⟨_, .spreadItem ‹_›, h⟩
    · exact .inr ⟨_, .plainItem ‹_›, h⟩

private theorem passes_value (h : Parser.value depth ts = .error (.tooDeep start)) :
    Passes start (value depth ts) := by
  cases ts with
  | nil => simp [Parser.value] at h
  | cons t ts =>
    rw [Parser.value] at h
    split at h
    · rename_i hl
      rw [h] at hl
      exact .inr ⟨_, .literal, hl⟩
    · exact .inr ⟨_, .dynamicForMismatch ‹_›, h⟩
    · split at h
      · simp at h
      · exact .inr ⟨_, .dynamicForMore ‹_› (by simp [*]), h⟩

private theorem passes_literal (h : Parser.literal depth ts = .error (.tooDeep start)) :
    Passes start (literal depth ts) := by
  cases ts with
  | nil => simp [Parser.literal] at h
  | cons t ts =>
    rw [Parser.literal] at h
    split at h
    · exact .inr ⟨_, .literalObject ‹_›, h⟩
    · exact .inr ⟨_, .literalArray ‹_›, h⟩
    · split at h <;> simp at h

private theorem passes_dynamic (h : Parser.dynamic depth first ts = .error (.tooDeep start)) :
    Passes start (dynamic depth first ts) := by
  rw [Parser.dynamic] at h
  split at h
  · obtain rfl := Except.error.inj h
    exact .inr ⟨_, .run, ‹_›⟩
  · split at h <;> simp at h

private theorem passes_run (h : Parser.run depth level stop ts = .error (.tooDeep start)) :
    Passes start (run depth level stop ts) := by
  cases ts with
  | nil => simp [Parser.run] at h
  | cons t ts =>
    rw [Parser.run] at h
    split at h
    · rename_i hbrace
      split at h
      · rename_i ho
        obtain rfl := Failure.tooDeep.inj (Except.error.inj h)
        exact .inr ⟨_, .objectInRun hbrace, ho⟩
      · exact .inr ⟨_, .runInBlock hbrace ‹_›, map_eq_error_iff.1 h⟩
      · exact .inr ⟨_, .runBehindObject hbrace ‹_›, map_eq_error_iff.1 h⟩
    · split at h
      · simp at h
      · split at h
        · simp at h
        · split at h
          · simp at h
          · exact .inr ⟨_, .runBehindToken ‹_› ‹_› ‹_› ‹_›, map_eq_error_iff.1 h⟩

theorem Refuses.passes (h : c.Refuses start) : Passes start c := by
  cases c with
  | roots ts => exact passes_roots h
  | object depth ts => exact passes_object h
  | members depth ts => exact passes_members h
  | member depth ts => exact passes_member h
  | method depth ts => exact passes_method h
  | array depth ts => exact passes_array h
  | items depth ts => exact passes_items h
  | item depth ts => exact passes_item h
  | value depth ts => exact passes_value h
  | literal depth ts => exact passes_literal h
  | dynamic depth first ts => exact passes_dynamic h
  | run depth level stop ts => exact passes_run h

/-- In the course of the call an object or an array is attempted at the token, too deep. -/
def Attempts (t : Token) (c : Call) : Prop :=
  ∃ c', Relation.ReflTransGen Makes c c' ∧ c'.IsTooDeep t

theorem Attempts.refuses (h : Attempts t c) : c.Refuses t.span.start := by
  obtain ⟨c', hmakes, hdeep⟩ := h
  induction hmakes using Relation.ReflTransGen.head_induction_on with
  | refl => exact hdeep.refuses
  | head hstep _ ih => exact hstep.refuses ih

theorem Refuses.exists_attempts (c : Call) (h : c.Refuses start) :
    ∃ t, Attempts t c ∧ t.span.start = start := by
  obtain ⟨t, hdeep, hstart⟩ | ⟨c', hmakes, hc'⟩ := h.passes
  · exact ⟨t, ⟨c, .refl, hdeep⟩, hstart⟩
  · have := hmakes.measure_lt
    obtain ⟨t, ⟨c'', hrun, hdeep⟩, hstart⟩ := exists_attempts c' hc'
    exact ⟨t, ⟨c'', .head hmakes hrun, hdeep⟩, hstart⟩
termination_by c.measure

/-- A call is refused exactly for what is attempted too deep in its course. -/
theorem refuses_iff : c.Refuses start ↔ ∃ t, Attempts t c ∧ t.span.start = start := by
  constructor
  · exact Refuses.exists_attempts c
  · rintro ⟨t, ht, rfl⟩
    exact ht.refuses

end Call
end DesignTokens.Script
