import DesignTokens.Proofs.Script.NestReading
import DesignTokens.Proofs.Script.Slices
import Mathlib.Data.List.TakeWhile

/-! # The steps of the parser

What each reader does at the front of the tokens of a nest, and where it stops. -/
namespace DesignTokens.Script
open Text (Span)
open Nest

/-- A reader gives a result, and leaves `after`. -/
def Reads {α : Type} {ts : List Token} (o : Parser.Outcome α ts) (r : Reading α)
    (after : List Token) : Prop :=
  o.map (fun p => (p.1, p.2.1)) = r.map fun a => (a, after)

namespace Reads
variable {α β : Type} {ts us after : List Token} {o : Parser.Outcome α ts} {r : Reading α}

theorem error_iff {failure : Failure} :
    Reads o (.error failure) after ↔ o = .error failure := by
  cases o <;> simp [Reads, Except.map]

theorem ok_iff {a : α} : Reads o (.ok a) after ↔ ∃ h, o = .ok (a, ⟨after, h⟩) := by
  cases o with
  | error failure => simp [Reads, Except.map]
  | ok p =>
    obtain ⟨b, rest, h⟩ := p
    simp only [Reads, Except.map, Except.ok.injEq, Prod.mk.injEq, Subtype.mk.injEq]
    constructor
    · rintro ⟨rfl, rfl⟩
      exact ⟨h, rfl, rfl⟩
    · rintro ⟨_, rfl, rfl⟩
      exact ⟨rfl, rfl⟩

theorem mapValue (f : α → β) (h : Reads o r after) : Reads (o.mapValue f) (r.map f) after := by
  cases r with
  | error failure =>
    obtain rfl := error_iff.1 h
    rfl
  | ok a =>
    obtain ⟨hlt, rfl⟩ := ok_iff.1 h
    rfl

theorem widen (hle : ts.length ≤ us.length) (h : Reads o r after) :
    Reads (o.widen hle) r after := by
  cases r with
  | error failure =>
    obtain rfl := error_iff.1 h
    rfl
  | ok a =>
    obtain ⟨hlt, rfl⟩ := ok_iff.1 h
    rfl

end Reads

namespace Parser

theorem levelAfter_of_not_delimiter {kind : TokenKind} (h : kind.isDelimiter = false)
    (level : Nat) : levelAfter level kind = some level := by
  cases kind <;> simp_all [levelAfter, TokenKind.isDelimiter]

/-- The tokens behind the partner. -/
def skipped (level : Nat) (ts : List Token) : Option (List Token) :=
  (skipBalanced level ts).map Subtype.val

theorem skipped_cons (level : Nat) (t : Token) (ts : List Token) :
    skipped level (t :: ts) =
      match levelAfter level t.kind with
      | none => none
      | some 0 => some ts
      | some level => skipped level ts := by
  unfold skipped
  rw [skipBalanced]
  rcases levelAfter level t.kind with _ | _ | level'
  · rfl
  · rfl
  · exact Option.map_map _ _ _

mutual

theorem skipped_tokens (n : Nest) (h : IsProper n) (level : Nat) (after : List Token) :
    skipped (level + 1) (n.tokens ++ after) = skipped (level + 1) after :=
  match n with
  | .token t => by
    have ht : t.kind.isDelimiter = false := by simpa using h
    simp [skipped_cons, levelAfter_of_not_delimiter ht]
  | .group d o c body => by
    have hb := skipped_tokensOf body (by simpa using h) (level + 1) (⟨.closer d, c⟩ :: after)
    simp [skipped_cons, levelAfter, hb]

theorem skipped_tokensOf (ns : List Nest) (h : AreProper ns) (level : Nat)
    (after : List Token) :
    skipped (level + 1) (tokensOf ns ++ after) = skipped (level + 1) after :=
  match ns with
  | [] => rfl
  | n :: ns => by
    have h := (areProper_cons n ns).1 h
    rw [tokensOf_cons, List.append_assoc, skipped_tokens n h.1, skipped_tokensOf ns h.2]

end

/-- A group is skipped to just behind its closing delimiter. -/
theorem skipped_group {d : Delimiter} {o c : Span} {body : List Nest} (h : AreProper body)
    (after : List Token) :
    skipped 0 (⟨.opener d, o⟩ :: (tokensOf body ++ ⟨.closer d, c⟩ :: after)) = some after := by
  simp [skipped_cons, levelAfter, skipped_tokensOf body h]

theorem skipBalanced_group {d : Delimiter} {o c : Span} {body : List Nest} (h : AreProper body)
    (after : List Token) :
    ∃ hlt, skipBalanced 0 (⟨.opener d, o⟩ :: (tokensOf body ++ ⟨.closer d, c⟩ :: after)) =
      some ⟨after, hlt⟩ := by
  obtain ⟨⟨rest, hlt⟩, he, hrest⟩ := Option.map_eq_some_iff.1
    (skipped_group (d := d) (o := o) (c := c) h after)
  have hrest : rest = after := hrest
  subst hrest
  exact ⟨hlt, he⟩

/-- What a value can stand in front of: the end, a comma or a closing delimiter. -/
theorem atValueEnd_iff (ts : List Token) :
    atValueEnd ts ↔ ∀ t ∈ ts.head?, t.kind = .comma ∨ ∃ d, t.kind = .closer d := by
  cases ts with
  | nil => simp [atValueEnd]
  | cons t ts => cases h : t.kind <;> simp [atValueEnd, endsValue, h]

/-- No value goes on behind a nest that is no comma. -/
theorem atValueEnd_tokensOf {n : Nest} {ns : List Nest} {after : List Token} (hp : n.IsProper)
    (hc : n.isKind .comma = false) : atValueEnd (tokensOf (n :: ns) ++ after) = false := by
  cases n with
  | token t =>
    obtain ⟨kind, span⟩ := t
    cases kind <;> simp_all [atValueEnd, endsValue, isKind, kind?, TokenKind.isDelimiter]
  | group d o c body => simp [atValueEnd, endsValue]

theorem key?_tokens {n : Nest} (hp : n.IsProper) (after : List Token) :
    (key? (n.tokens ++ after)).map (fun p => (p.1, p.2.1)) = n.key?.map fun key => (key, after) := by
  cases n with
  | token t =>
    obtain ⟨kind, span⟩ := t
    cases kind <;> simp_all [key?, Nest.key?, TokenKind.isDelimiter]
  | group d o c body =>
    cases d with
    | bracket =>
      obtain ⟨hlt, hs⟩ := skipBalanced_group (d := .bracket) (o := o) (c := c)
        (by simpa using hp) after
      rw [tokens_group, List.cons_append, List.append_assoc, List.singleton_append]
      simp [key?, Nest.key?, hs]
    | _ => simp [key?, Nest.key?]

theorem key?_eq_none {n : Nest} (hp : n.IsProper) (h : n.key? = none) (after : List Token) :
    key? (n.tokens ++ after) = none := by
  have := key?_tokens hp after
  rw [h] at this
  exact Option.map_eq_none_iff.1 this

theorem key?_eq_some {n : Nest} (hp : n.IsProper) {key : Option String} (h : n.key? = some key)
    (after : List Token) : ∃ hlt, key? (n.tokens ++ after) = some (key, ⟨after, hlt⟩) := by
  have := key?_tokens hp after
  rw [h] at this
  obtain ⟨⟨k, rest, hlt⟩, he, hr⟩ := Option.map_eq_some_iff.1 this
  simp only [Prod.mk.injEq] at hr
  obtain ⟨rfl, rfl⟩ := hr
  exact ⟨hlt, he⟩

end Parser

namespace Parser

theorem nextItem?_comma (d : Delimiter) (span : Span) (ts : List Token) :
    ∃ h, nextItem? d (⟨.comma, span⟩ :: ts) = some ⟨ts, h⟩ := ⟨by simp, by simp [nextItem?]⟩

theorem nextItem?_closer (d : Delimiter) (span : Span) (ts : List Token) :
    ∃ h, nextItem? d (⟨.closer d, span⟩ :: ts) = some ⟨⟨.closer d, span⟩ :: ts, h⟩ :=
  ⟨Nat.le_refl _, by simp [nextItem?]⟩

end Parser

theorem reads_members_step {depth stop : Nat} {t : Token} {ts tail more after : List Token}
    {first : Reading Member} {others : Reading (List Member)}
    (ht : t.kind ≠ .closer .brace) (hf : Reads (Parser.member depth (t :: ts)) first tail)
    (hn : ∃ h, Parser.nextItem? .brace tail = some ⟨more, h⟩)
    (ho : Reads (Parser.members depth more) (others.map fun inside => (inside, stop)) after) :
    Reads (Parser.members depth (t :: ts))
      ((first.cons others).map fun inside => (inside, stop)) after := by
  rw [Parser.members, if_neg ht]
  cases first with
  | error failure =>
    rw [Reads.error_iff.1 hf]
    exact Reads.error_iff.2 rfl
  | ok a =>
    obtain ⟨hlt, he⟩ := Reads.ok_iff.1 hf
    obtain ⟨hle, hn⟩ := hn
    simp only [he, hn]
    cases others with
    | error failure =>
      rw [Reads.error_iff.1 ho]
      exact Reads.error_iff.2 rfl
    | ok as =>
      obtain ⟨hl, hm⟩ := Reads.ok_iff.1 ho
      rw [hm]
      exact Reads.ok_iff.2 ⟨_, rfl⟩

theorem reads_items_step {depth stop : Nat} {t : Token} {ts tail more after : List Token}
    {first : Reading Expr} {others : Reading (List Expr)}
    (ht : t.kind ≠ .closer .bracket) (hc : t.kind ≠ .comma)
    (hf : Reads (Parser.item depth (t :: ts)) first tail)
    (hn : ∃ h, Parser.nextItem? .bracket tail = some ⟨more, h⟩)
    (ho : Reads (Parser.items depth more) (others.map fun inside => (inside, stop)) after) :
    Reads (Parser.items depth (t :: ts))
      ((first.cons others).map fun inside => (inside, stop)) after := by
  rw [Parser.items, if_neg ht, if_neg hc]
  cases first with
  | error failure =>
    rw [Reads.error_iff.1 hf]
    exact Reads.error_iff.2 rfl
  | ok a =>
    obtain ⟨hlt, he⟩ := Reads.ok_iff.1 hf
    obtain ⟨hle, hn⟩ := hn
    simp only [he, hn]
    cases others with
    | error failure =>
      rw [Reads.error_iff.1 ho]
      exact Reads.error_iff.2 rfl
    | ok as =>
      obtain ⟨hl, hm⟩ := Reads.ok_iff.1 ho
      rw [hm]
      exact Reads.ok_iff.2 ⟨_, rfl⟩

namespace Parser

/-- A run of tokens, as far as it goes. -/
def runTo (depth level stop : Nat) (ts : List Token) :
    Except Failure ((List Expr × Nat) × List Token) :=
  (run depth level stop ts).map fun p => (p.1, p.2.1)

theorem runTo_token {depth level stop : Nat} {t : Token} (ts : List Token)
    (ht : t.kind.isDelimiter = false)
    (hl : level = 0 → t.kind ≠ .comma ∧ t.kind ≠ .semicolon) :
    runTo depth level stop (t :: ts) = runTo depth level t.span.stop ts := by
  have hb : t.kind ≠ .opener .brace := by
    intro hk
    simp [hk, TokenKind.isDelimiter] at ht
  have he : ¬(level = 0 ∧ endsValue t.kind) := by
    rintro ⟨h0, he⟩
    have := (hl h0).1
    cases hk : t.kind <;> simp_all [endsValue, TokenKind.isDelimiter]
  have hs : ¬(level = 0 ∧ t.kind = .semicolon) := fun h => (hl h.1).2 h.2
  unfold runTo
  rw [run, if_neg hb, if_neg he, if_neg hs, levelAfter_of_not_delimiter ht]
  dsimp only
  cases run depth level t.span.stop ts <;> rfl

theorem runTo_opener {depth level stop : Nat} {d : Delimiter} {span : Span} (ts : List Token)
    (hd : d ≠ .brace) :
    runTo depth level stop (⟨.opener d, span⟩ :: ts) = runTo depth (level + 1) span.stop ts := by
  unfold runTo
  rw [run]
  simp [hd, endsValue, levelAfter]
  cases run depth (level + 1) span.stop ts <;> rfl

theorem runTo_closer {depth level stop : Nat} {d : Delimiter} {span : Span} (ts : List Token) :
    runTo depth (level + 1) stop (⟨.closer d, span⟩ :: ts) = runTo depth level span.stop ts := by
  unfold runTo
  rw [run]
  simp [levelAfter]
  cases run depth level span.stop ts <;> rfl

theorem runTo_brace_tooDeep {depth level stop start : Nat} {span : Span} {ts : List Token}
    (h : object (depth + 1) (⟨.opener .brace, span⟩ :: ts) = .error (.tooDeep start)) :
    runTo depth level stop (⟨.opener .brace, span⟩ :: ts) = .error (.tooDeep start) := by
  unfold runTo
  rw [run, if_pos rfl, h]
  rfl

theorem runTo_brace_mismatch {depth level stop : Nat} {span : Span} {ts : List Token}
    (h : object (depth + 1) (⟨.opener .brace, span⟩ :: ts) = .error .mismatch) :
    runTo depth level stop (⟨.opener .brace, span⟩ :: ts) =
      runTo depth (level + 1) span.stop ts := by
  unfold runTo
  rw [run, if_pos rfl, h]
  dsimp only
  cases run depth (level + 1) span.stop ts <;> rfl

/-- The object literals found first come before those found later. -/
def prependFound (objects : List Expr) (r : Except Failure ((List Expr × Nat) × List Token)) :
    Except Failure ((List Expr × Nat) × List Token) :=
  r.map fun p => ((objects ++ p.1.1, p.1.2), p.2)

@[simp] theorem prependFound_nil (r : Except Failure ((List Expr × Nat) × List Token)) :
    prependFound [] r = r := by
  cases r <;> rfl

@[simp] theorem prependFound_prependFound (xs ys : List Expr)
    (r : Except Failure ((List Expr × Nat) × List Token)) :
    prependFound xs (prependFound ys r) = prependFound (xs ++ ys) r := by
  cases r <;> simp [prependFound, Except.map]

theorem runTo_brace_ok {depth level stop : Nat} {span : Span} {ts : List Token} {expr : Expr}
    {rest : Rest (⟨.opener .brace, span⟩ :: ts)}
    (h : object (depth + 1) (⟨.opener .brace, span⟩ :: ts) = .ok (expr, rest)) :
    runTo depth level stop (⟨.opener .brace, span⟩ :: ts) =
      prependFound [expr] (runTo depth level expr.span.stop rest.1) := by
  unfold runTo
  rw [run, if_pos rfl, h]
  dsimp only
  cases run depth level expr.span.stop rest.1 <;> rfl

theorem runTo_end {depth stop : Nat} {ts : List Token} (h : atValueEnd ts) :
    runTo depth 0 stop ts = .ok (([], stop), ts) := by
  unfold runTo
  cases ts with
  | nil => rw [run]; rfl
  | cons t ts =>
    have hb : t.kind ≠ .opener .brace := by
      intro hk
      simp [atValueEnd, endsValue, hk] at h
    rw [run, if_neg hb, if_pos ⟨rfl, h⟩]
    rfl

private theorem runTo_semicolon {depth stop : Nat} {span : Span} (ts : List Token) :
    runTo depth 0 stop (⟨.semicolon, span⟩ :: ts) = .error .mismatch := by
  unfold runTo
  rw [run]
  simp [endsValue]
  rfl

/-- Where the last of some nests ends. -/
def lastStop (stop : Nat) : List Nest → Nat
  | [] => stop
  | n :: ns => lastStop n.span.stop ns

private theorem lastStop_eq {ns : List Nest} {last : Nest} (h : ns.getLast? = some last)
    (stop : Nat) :
    lastStop stop ns = last.span.stop := by
  induction ns generalizing stop with
  | nil => cases h
  | cons n ns ih =>
    cases ns with
    | nil =>
      obtain rfl := Option.some.inj h
      rfl
    | cons m ns => exact ih (by simpa using h) n.span.stop

end Parser

/-- What a run comes to once the object literals of some nests were found in it. -/
def afterFound (found : Except Nat (List Expr))
    (next : Except Failure ((List Expr × Nat) × List Token)) :
    Except Failure ((List Expr × Nat) × List Token) :=
  match found with
  | .error start => .error (.tooDeep start)
  | .ok objects => Parser.prependFound objects next

@[simp] theorem afterFound_nil (next : Except Failure ((List Expr × Nat) × List Token)) :
    afterFound (.ok []) next = next := Parser.prependFound_nil next

theorem afterFound_both (first second : Except Nat (List Expr))
    (next : Except Failure ((List Expr × Nat) × List Token)) :
    afterFound (Reading.both first second) next = afterFound first (afterFound second next) := by
  cases first with
  | error start => rfl
  | ok inside =>
    cases second with
    | error start => rfl
    | ok others => simp [Reading.both, afterFound]

theorem tokens_eq_cons (n : Nest) :
    ∃ t ts, n.tokens = t :: ts ∧ t.span.start = n.span.start := by
  cases n with
  | token t => exact ⟨t, [], rfl, rfl⟩
  | group d o c body => exact ⟨_, _, rfl, rfl⟩

/-- The kind of a nest can be told from its first token. -/
theorem isKind_iff {n : Nest} {t : Token} {ts : List Token} (h : n.tokens = t :: ts)
    {kind : TokenKind} (hk : kind.isDelimiter = false) : n.isKind kind ↔ t.kind = kind := by
  cases n with
  | token u =>
    obtain ⟨rfl, rfl⟩ := List.cons_eq_cons.1 h
    simp [isKind, kind?]
  | group d o c body =>
    obtain ⟨rfl, -⟩ := List.cons_eq_cons.1 h
    simp only [isKind, kind?]
    constructor
    · simp
    · rintro rfl
      simp [TokenKind.isDelimiter] at hk

theorem eq_token_of_isKind {n : Nest} {t : Token} {ts : List Token} (h : n.tokens = t :: ts)
    {kind : TokenKind} (hk : n.isKind kind) : n = .token t ∧ ts = [] := by
  cases n with
  | token u =>
    obtain ⟨rfl, rfl⟩ := List.cons_eq_cons.1 h
    exact ⟨rfl, rfl⟩
  | group d o c body => simp [isKind, kind?] at hk

theorem isGroup_iff {n : Nest} {t : Token} {ts : List Token} (hp : n.IsProper)
    (h : n.tokens = t :: ts) (d : Delimiter) : n.isGroup d ↔ t.kind = .opener d := by
  cases n with
  | token u =>
    obtain ⟨rfl, rfl⟩ := List.cons_eq_cons.1 h
    simp only [isGroup, Bool.false_eq_true, false_iff]
    intro hk
    simp [hk, TokenKind.isDelimiter] at hp
  | group d' o c body =>
    obtain ⟨rfl, -⟩ := List.cons_eq_cons.1 h
    simp [isGroup]

private theorem ne_closer_of_isProper {n : Nest} {t : Token} {ts : List Token} (hp : n.IsProper)
    (h : n.tokens = t :: ts) (d : Delimiter) : t.kind ≠ .closer d := by
  have hone : tokensOf [n] = t :: ts := by simpa using h
  exact ne_closer_of_tokensOf (by simpa using hp) hone d

/-- Only a name that nothing but the end of its item follows is a shorthand. -/
theorem isShorthand_eq {n : Nest} {t : Token} {ts : List Token} (h : n.tokens = t :: ts)
    (next : Token) (more : List Token) :
    Parser.isShorthand t (next :: more) =
      (n.isShorthand && (next.kind = .comma || next.kind = .closer .brace)) := by
  cases n with
  | token u =>
    obtain ⟨rfl, rfl⟩ := List.cons_eq_cons.1 h
    obtain ⟨kind, span⟩ := u
    cases kind <;> simp [Parser.isShorthand, Nest.isShorthand]
  | group d o c body =>
    obtain ⟨rfl, -⟩ := List.cons_eq_cons.1 h
    simp [Parser.isShorthand, Nest.isShorthand]

theorem reads_method {depth : Nat} {o c : Span} {args more : List Nest} {tail : List Token}
    {r : Reading Expr} (ha : AreProper args) (hm : AreProper more)
    (ht : ∀ t ∈ tail.head?, ∀ d, t.kind ≠ .opener d)
    (hd : Reads (Parser.dynamic depth o.start (tokensOf more ++ tail)) r tail) :
    Reads (Parser.method depth (⟨.opener .parenthesis, o⟩ ::
        (tokensOf args ++ ⟨.closer .parenthesis, c⟩ :: (tokensOf more ++ tail))))
      (if more.head?.any (·.isGroup .brace) then r else .error .mismatch) tail := by
  obtain ⟨hlt, hs⟩ := Parser.skipBalanced_group (d := .parenthesis) (o := o) (c := c) ha
    (tokensOf more ++ tail)
  rw [Parser.method, hs]
  cases more with
  | nil =>
    cases tail with
    | nil => exact Reads.error_iff.2 rfl
    | cons t tail =>
      have := ht t rfl .brace
      simp [this, Reads.error_iff]
  | cons m ms =>
    have hm := ((areProper_cons m ms).1 hm).1
    obtain ⟨t, ts, he, -⟩ := tokens_eq_cons m
    have hg := isGroup_iff hm he .brace
    have hcons : tokensOf (m :: ms) ++ tail = t :: (ts ++ (tokensOf ms ++ tail)) := by simp [he]
    have hany : (m :: ms).head?.any (·.isGroup .brace) = m.isGroup .brace := rfl
    rw [hany]
    revert hlt hs hd
    rw [hcons]
    intro hd hlt hs
    dsimp only
    by_cases hb : t.kind = .opener .brace
    · rw [if_pos hb, if_pos (hg.2 hb)]
      exact hd.widen _
    · rw [if_neg hb, if_neg fun h => hb (hg.1 h)]
      exact Reads.error_iff.2 rfl

/-- What the parser goes on with behind a key. -/
theorem member_of_key? (depth : Nat) {t next : Token} {ts more : List Token}
    {key : Option String} (hs : t.kind ≠ .spread)
    (hk : ∃ hlt, Parser.key? (t :: ts) = some (key, ⟨next :: more, hlt⟩)) :
    ∃ hle hle' hlt, Parser.member depth (t :: ts) =
      if next.kind = .colon then
        ((Parser.value depth more).mapValue (.pair key)).widen hle
      else if next.kind = .opener .parenthesis then
        ((Parser.method depth (next :: more)).mapValue (.pair key)).widen hle'
      else if Parser.isShorthand t (next :: more) then
        .ok (.pair key (.dynamic t.span []), ⟨next :: more, hlt⟩)
      else .error .mismatch := by
  obtain ⟨hlt, hk⟩ := hk
  have hlt' : more.length + 1 < ts.length + 1 := by simpa using hlt
  refine ⟨by simp; omega, by simp; omega, hlt, ?_⟩
  rw [Parser.member, if_neg hs, hk]

/-- A member whose key is alone. -/
theorem reads_single {depth : Nat} {first : Nest} {e : Token} {tail : List Token}
    (he : e.kind = .comma ∨ e.kind = .closer .brace) (hp : first.IsProper)
    (hs : first.isKind .spread = false) :
    Reads (Parser.member depth (first.tokens ++ e :: tail)) (Reading.member depth [first])
      (e :: tail) := by
  obtain ⟨t, ts, htok, -⟩ := tokens_eq_cons first
  have hspread : t.kind ≠ .spread := fun h => by simp [(isKind_iff htok rfl).2 h] at hs
  cases hkey : first.key? with
  | none =>
    have hk := Parser.key?_eq_none hp hkey (e :: tail)
    rw [Reading.member_keyless hs hkey]
    rw [htok, List.cons_append] at hk ⊢
    rw [Parser.member, if_neg hspread, hk, Reads.error_iff]
  | some key =>
    have hk := Parser.key?_eq_some hp hkey (e :: tail)
    rw [Reading.member_single hs hkey]
    rw [htok, List.cons_append] at hk ⊢
    obtain ⟨hle, hle', hlt, hm⟩ := member_of_key? depth hspread hk
    have hcolon : e.kind ≠ .colon := by rcases he with he | he <;> simp [he]
    have hparen : e.kind ≠ .opener .parenthesis := by rcases he with he | he <;> simp [he]
    rw [hm, if_neg hcolon, if_neg hparen, isShorthand_eq htok]
    by_cases hid : first.isShorthand
    · have hspan : t.span = first.span := by
        cases first with
        | token u =>
          obtain ⟨rfl, -⟩ := List.cons_eq_cons.1 htok
          rfl
        | group d o c body => simp [Nest.isShorthand] at hid
      rw [if_pos (by simp [hid, he]), if_pos hid, hspan]
      exact Reads.ok_iff.2 ⟨hlt, rfl⟩
    · rw [if_neg (by simp [hid]), if_neg hid, Reads.error_iff]

/-- A member that goes on behind its key. -/
theorem reads_continued {depth : Nat} {first next : Nest} {more : List Nest} {e : Token}
    {tail : List Token} (he : e.kind = .comma ∨ e.kind = .closer .brace)
    (hi : IsItem (first :: next :: more)) (hs : first.isKind .spread = false)
    (hvalue : Reads (Parser.value depth (tokensOf more ++ e :: tail))
      (Reading.value depth more) (e :: tail))
    (hdynamic : Reads (Parser.dynamic depth next.span.start (tokensOf more ++ e :: tail))
      (Reading.dynamic depth next.span.start more) (e :: tail)) :
    Reads (Parser.member depth (tokensOf (first :: next :: more) ++ e :: tail))
      (Reading.member depth (first :: next :: more)) (e :: tail) := by
  obtain ⟨hp, -⟩ := hi.head
  obtain ⟨hpn, hcn⟩ := hi.tail.head
  obtain ⟨t, ts, htok, -⟩ := tokens_eq_cons first
  obtain ⟨u, us, hutok, -⟩ := tokens_eq_cons next
  have hspread : t.kind ≠ .spread := fun h => by simp [(isKind_iff htok rfl).2 h] at hs
  have hall : tokensOf (first :: next :: more) ++ e :: tail =
      first.tokens ++ (u :: (us ++ (tokensOf more ++ e :: tail))) := by simp [hutok]
  rw [hall]
  cases hkey : first.key? with
  | none =>
    have hk := Parser.key?_eq_none hp hkey (u :: (us ++ (tokensOf more ++ e :: tail)))
    rw [Reading.member_keyless hs hkey]
    rw [htok, List.cons_append] at hk ⊢
    rw [Parser.member, if_neg hspread, hk, Reads.error_iff]
  | some key =>
    have hk := Parser.key?_eq_some hp hkey (u :: (us ++ (tokensOf more ++ e :: tail)))
    rw [htok, List.cons_append] at hk ⊢
    obtain ⟨hle, hle', hlt, hm⟩ := member_of_key? depth hspread hk
    rw [hm]
    by_cases hcolon : next.isKind .colon
    · rw [Reading.member_pair hs hkey hcolon, if_pos ((isKind_iff hutok rfl).1 hcolon)]
      obtain ⟨rfl, rfl⟩ := eq_token_of_isKind hutok hcolon
      exact (hvalue.mapValue _).widen _
    rw [if_neg fun h => hcolon ((isKind_iff hutok rfl).2 h)]
    have hcolon : next.isKind .colon = false := by simpa using hcolon
    by_cases hg : next.isGroup .parenthesis
    · rw [Reading.member_method hs hkey hcolon hg, if_pos ((isGroup_iff hpn hutok _).1 hg)]
      cases next with
      | token v => simp [isGroup] at hg
      | group d o c args =>
        obtain rfl : d = .parenthesis := by simpa [isGroup] using hg
        obtain ⟨rfl, rfl⟩ := List.cons_eq_cons.1 hutok
        have htail : ∀ t ∈ (e :: tail).head?, ∀ d, t.kind ≠ .opener d := by
          rintro t ht d hk
          obtain rfl := Option.some.inj ht
          rcases he with he | he <;> simp [he] at hk
        have hm := reads_method (o := o) (c := c) (by simpa using hpn) hi.tail.tail.proper htail
          hdynamic
        refine Reads.widen _ (Reads.mapValue _ ?_)
        rw [List.append_assoc, List.singleton_append]
        exact hm
    · rw [Reading.member_other hs hkey hcolon (by simpa using hg),
        if_neg fun h => hg ((isGroup_iff hpn hutok _).2 h), isShorthand_eq htok]
      have hcomma : u.kind ≠ .comma := fun h => by simp [(isKind_iff hutok rfl).2 h] at hcn
      have hcloser := ne_closer_of_isProper hpn hutok .brace
      rw [if_neg (by simp [hcomma, hcloser]), Reads.error_iff]

namespace Parser

theorem dynamic_error {depth start : Nat} {ts : List Token} {failure : Failure}
    (h : runTo depth 0 start ts = .error failure) :
    dynamic depth start ts = .error failure := by
  rw [dynamic]
  unfold runTo at h
  cases hr : run depth 0 start ts with
  | error f =>
    rw [hr] at h
    obtain rfl := Except.error.inj h
    rfl
  | ok p =>
    rw [hr] at h
    cases h

theorem dynamic_eq {depth start stop : Nat} {ts left : List Token} {objects : List Expr}
    (h : runTo depth 0 start ts = .ok ((objects, stop), left)) :
    dynamic depth start ts =
      if hlt : left.length < ts.length then
        .ok (.dynamic ⟨start, stop⟩ objects, ⟨left, hlt⟩)
      else .error .mismatch := by
  rw [dynamic]
  unfold runTo at h
  cases hr : run depth 0 start ts with
  | error f =>
    rw [hr] at h
    cases h
  | ok p =>
    obtain ⟨p, q, hq⟩ := p
    rw [hr] at h
    simp only [Except.map, Except.ok.injEq, Prod.mk.injEq] at h
    obtain ⟨rfl, rfl⟩ := h
    rfl

/-- There is no value where one ends. -/
theorem dynamic_end {depth start : Nat} {ts : List Token} (h : atValueEnd ts) :
    dynamic depth start ts = .error .mismatch := by
  rw [dynamic_eq (runTo_end h), dif_neg (Nat.lt_irrefl _)]

private theorem literal_end {depth : Nat} {ts : List Token} (h : atValueEnd ts) :
    literal depth ts = .error .mismatch := by
  rw [literal.eq_def]
  cases ts with
  | nil => rfl
  | cons t ts =>
    cases hk : t.kind <;> simp_all [atValueEnd, endsValue, constant?]

theorem value_end {depth : Nat} {ts : List Token} (h : atValueEnd ts) :
    value depth ts = .error .mismatch := by
  rw [value.eq_def]
  cases ts with
  | nil => rfl
  | cons t ts =>
    simp only [literal_end h]
    exact dynamic_end h

end Parser

private theorem takeWhile_eq_append {ns : List Nest} (h : ns.any (·.isKind .semicolon)) :
    ∃ span after, ns = ns.takeWhile (fun n => !n.isKind .semicolon) ++
      .token ⟨.semicolon, span⟩ :: after := by
  induction ns with
  | nil => simp at h
  | cons n ns ih =>
    by_cases hn : n.isKind .semicolon
    · obtain ⟨t, ts, ht, -⟩ := tokens_eq_cons n
      obtain ⟨rfl, -⟩ := eq_token_of_isKind ht hn
      obtain ⟨kind, span⟩ := t
      simp only [isKind, kind?, Option.some.injEq, decide_eq_true_eq] at hn
      subst hn
      exact ⟨span, ns, by simp [isKind, kind?]⟩
    · obtain ⟨span, after, he⟩ := ih (by simpa [hn] using h)
      refine ⟨span, after, ?_⟩
      rw [List.takeWhile_cons, if_pos (by simpa using hn), List.cons_append, ← he]

private theorem length_lt_of_ne_nil {ns : List Nest} (h : ns ≠ []) (tail : List Token) :
    tail.length < (tokensOf ns ++ tail).length := by
  cases ns with
  | nil => exact (h rfl).elim
  | cons n ns =>
    obtain ⟨t, ts, ht, -⟩ := tokens_eq_cons n
    simp [ht]
    omega

/-- A run of unknown value, given what was found before its first semicolon. -/
theorem reads_dynamic_of_found {depth start : Nat} {ns before : List Nest} {tail : List Token}
    (ht : Parser.atValueEnd tail)
    (hb : ns.takeWhile (fun n => !n.isKind .semicolon) = before)
    (hf : ∀ after, Parser.runTo depth 0 start (tokensOf before ++ after) =
      afterFound (Reading.found (depth + 1) before)
        (Parser.runTo depth 0 (Parser.lastStop start before) after)) :
    Reads (Parser.dynamic depth start (tokensOf ns ++ tail)) (Reading.dynamic depth start ns)
      tail := by
  rw [Reading.dynamic.eq_def, hb]
  cases hl : ns.getLast? with
  | none =>
    obtain rfl := List.getLast?_eq_none_iff.1 hl
    exact Reads.error_iff.2 (Parser.dynamic_end ht)
  | some last =>
    have hne : ns ≠ [] := by
      rintro rfl
      cases hl
    by_cases hs : ns.any (·.isKind .semicolon)
    · obtain ⟨span, after, he⟩ := takeWhile_eq_append hs
      rw [hb] at he
      have hr : Parser.runTo depth 0 start (tokensOf ns ++ tail) =
          afterFound (Reading.found (depth + 1) before) (.error .mismatch) := by
        rw [he, tokensOf_append, List.append_assoc, hf]
        exact congrArg _ (Parser.runTo_semicolon _)
      cases hfound : Reading.found (depth + 1) before with
      | error s =>
        rw [hfound] at hr
        exact Reads.error_iff.2 (Parser.dynamic_error hr)
      | ok objects =>
        rw [hfound] at hr
        simp only [hs, if_true]
        exact Reads.error_iff.2 (Parser.dynamic_error hr)
    · have hself : ns = before := by
        rw [← hb, eq_comm, List.takeWhile_eq_self_iff]
        simpa using hs
      subst hself
      have hr := hf tail
      rw [Parser.runTo_end ht, Parser.lastStop_eq hl] at hr
      cases hfound : Reading.found (depth + 1) ns with
      | error s =>
        rw [hfound] at hr
        exact Reads.error_iff.2 (Parser.dynamic_error hr)
      | ok objects =>
        rw [hfound] at hr
        have hr : Parser.runTo depth 0 start (tokensOf ns ++ tail) =
            .ok ((objects, last.span.stop), tail) := by
          simpa [afterFound, Parser.prependFound, Except.map] using hr
        rw [Parser.dynamic_eq hr, dif_pos (length_lt_of_ne_nil hne tail)]
        simp only [hs]
        exact Reads.ok_iff.2 ⟨_, rfl⟩

/-- A value, given what is read as its literal and as a run. -/
theorem reads_value_of_literal {depth : Nat} {first : Nest} {rest : List Nest}
    {tail : List Token} (ht : Parser.atValueEnd tail) (hi : IsItem (first :: rest))
    (hl : Reads (Parser.literal depth (first.tokens ++ (tokensOf rest ++ tail)))
      (Reading.literal depth first) (tokensOf rest ++ tail))
    (hd : Reads (Parser.dynamic depth first.span.start (tokensOf (first :: rest) ++ tail))
      (Reading.dynamic depth first.span.start (first :: rest)) tail) :
    Reads (Parser.value depth (tokensOf (first :: rest) ++ tail))
      (Reading.value depth (first :: rest)) tail := by
  obtain ⟨t, ts, htok, hstart⟩ := tokens_eq_cons first
  rw [Reading.value]
  rw [tokensOf_cons, List.append_assoc, htok, List.cons_append] at hd ⊢
  rw [htok, List.cons_append] at hl
  rw [Parser.value]
  rw [← hstart] at hd ⊢
  cases hlit : Reading.literal depth first with
  | error failure =>
    rw [hlit, Reads.error_iff] at hl
    cases failure with
    | tooDeep start => simp [hl, Reads.error_iff]
    | mismatch =>
      simp only [hl]
      exact hd
  | ok expr =>
    rw [hlit] at hl
    obtain ⟨hlt, he⟩ := Reads.ok_iff.1 hl
    simp only [he]
    cases rest with
    | nil =>
      rw [if_pos (by simpa using ht)]
      exact Reads.ok_iff.2 ⟨hlt, rfl⟩
    | cons next more =>
      obtain ⟨hpn, hcn⟩ := hi.tail.head
      rw [if_neg (Bool.not_eq_true _ ▸ Parser.atValueEnd_tokensOf hpn hcn)]
      exact hd

/-- The token at the front of a run or of what ends it does not end the container. -/
theorem exists_head {run : List Nest} (hp : AreProper run) (e : Token) (tail : List Token)
    {d : Delimiter} (h : run ≠ [] ∨ e.kind ≠ .closer d) :
    ∃ t ts, tokensOf run ++ e :: tail = t :: ts ∧ t.kind ≠ .closer d := by
  cases run with
  | nil => exact ⟨e, tail, rfl, by simpa using h⟩
  | cons n ns =>
    obtain ⟨t, ts, ht, -⟩ := tokens_eq_cons n
    exact ⟨t, ts ++ (tokensOf ns ++ e :: tail), by simp [ht],
      ne_closer_of_isProper ((areProper_cons n ns).1 hp).1 ht d⟩

theorem exists_head_item {n : Nest} {ns : List Nest} (hi : IsItem (n :: ns)) (tail : List Token)
    (d : Delimiter) :
    ∃ t ts, tokensOf (n :: ns) ++ tail = t :: ts ∧ t.kind ≠ .closer d ∧ t.kind ≠ .comma := by
  obtain ⟨t, ts, ht, -⟩ := tokens_eq_cons n
  refine ⟨t, ts ++ (tokensOf ns ++ tail), by simp [ht], ne_closer_of_isProper hi.head.1 ht d, ?_⟩
  intro hk
  have := hi.head.2
  simp [(isKind_iff ht rfl).2 hk] at this

theorem reads_members_end (depth : Nat) (c : Span) (after : List Token) :
    Reads (Parser.members depth (⟨.closer .brace, c⟩ :: after))
      ((Reading.members depth []).map fun inside => (inside, c.stop)) after := by
  rw [Parser.members, if_pos rfl, Reading.members_nil]
  exact Reads.ok_iff.2 ⟨_, rfl⟩

theorem reads_items_end (depth : Nat) (c : Span) (after : List Token) :
    Reads (Parser.items depth (⟨.closer .bracket, c⟩ :: after))
      ((Reading.elements depth []).map fun inside => (inside, c.stop)) after := by
  rw [Parser.items, if_pos rfl, Reading.elements_nil]
  exact Reads.ok_iff.2 ⟨_, rfl⟩

end DesignTokens.Script
