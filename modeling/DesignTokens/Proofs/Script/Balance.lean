import DesignTokens.Script.Document
import Mathlib.Data.List.Infix
import Mathlib.Algebra.Ring.Int.Defs

/-! # Balanced tokens

A run of tokens is balanced where every delimiter has a partner of its own kind. Such runs are the
tokens of nests, the nests are unique, and so is the partner of an opening delimiter. -/
namespace DesignTokens.Script
open Text (Span)

namespace TokenKind

def isDelimiter : TokenKind → Bool
  | opener _ | closer _ => true
  | _ => false

/-- What a token adds to the number of open delimiters. -/
def turn : TokenKind → Int
  | opener _ => 1
  | closer _ => -1
  | _ => 0

theorem turn_eq_zero {kind : TokenKind} (h : kind.isDelimiter = false) : kind.turn = 0 := by
  cases kind <;> simp_all [isDelimiter, turn]

end TokenKind

/-- Opening delimiters less closing ones. -/
def openCount (ts : List Token) : Int := (ts.map fun t => t.kind.turn).sum

@[simp] theorem openCount_nil : openCount [] = 0 := rfl

@[simp] theorem openCount_cons (t : Token) (ts : List Token) :
    openCount (t :: ts) = t.kind.turn + openCount ts := rfl

@[simp] theorem openCount_append (xs ys : List Token) :
    openCount (xs ++ ys) = openCount xs + openCount ys := by
  simp [openCount]

/-- At no place are more than `limit` delimiters open. -/
def NestsWithin (limit : Nat) (ts : List Token) : Prop :=
  ∀ before, before <+: ts → openCount before ≤ limit

instance (limit : Nat) (ts : List Token) : Decidable (NestsWithin limit ts) :=
  decidable_of_iff (∀ before ∈ ts.inits, openCount before ≤ limit) (by simp [NestsWithin])

/-- Every delimiter has a partner of its own kind. -/
inductive Balanced : List Token → Prop
  | nil : Balanced []
  | token {t : Token} {ts : List Token} (ht : t.kind.isDelimiter = false) (h : Balanced ts) :
      Balanced (t :: ts)
  | group {delimiter : Delimiter} {opening closing : Span} {inside ts : List Token}
      (hi : Balanced inside) (h : Balanced ts) :
      Balanced (⟨.opener delimiter, opening⟩ :: (inside ++ ⟨.closer delimiter, closing⟩ :: ts))

namespace Balanced

theorem append {xs ys : List Token} (hx : Balanced xs) (hy : Balanced ys) :
    Balanced (xs ++ ys) := by
  induction hx with
  | nil => exact hy
  | token ht h ih => exact .token ht ih
  | group hi h _ ih => simpa using Balanced.group hi ih

theorem openCount_eq_zero {ts : List Token} (h : Balanced ts) : openCount ts = 0 := by
  induction h with
  | nil => rfl
  | token ht h ih => simp [TokenKind.turn_eq_zero ht, ih]
  | group hi h ihi ih => simp [TokenKind.turn, ihi, ih]

/-- No closing delimiter comes before its partner. -/
theorem openCount_nonneg {ts before : List Token} (h : Balanced ts) (hb : before <+: ts) :
    0 ≤ openCount before := by
  induction h generalizing before with
  | nil => simp [List.prefix_nil.1 hb]
  | token ht h ih =>
    rcases List.prefix_cons_iff.1 hb with rfl | ⟨rest, rfl, hr⟩
    · simp
    · simpa [TokenKind.turn_eq_zero ht] using ih hr
  | @group d o c inside ts hi h ihi ih =>
    rcases List.prefix_cons_iff.1 hb with rfl | ⟨rest, rfl, hr⟩
    · simp
    · rcases List.prefix_or_prefix_of_prefix hr (List.prefix_append inside _) with hi' | ⟨tail, rfl⟩
      · have := ihi hi'
        simp [TokenKind.turn]
        omega
      · rcases List.prefix_cons_iff.1 ((List.prefix_append_right_inj inside).1 hr) with
          rfl | ⟨last, rfl, hl⟩
        · simp [TokenKind.turn, hi.openCount_eq_zero]
        · have := ih hl
          simp [TokenKind.turn, hi.openCount_eq_zero]
          omega

private theorem length_le_of_closer {inside inside' after after' : List Token}
    {t : Token} {d : Delimiter} (ht : t.kind = .closer d) (h : Balanced inside)
    (h' : Balanced inside') (he : inside ++ after = inside' ++ t :: after') :
    inside.length ≤ inside'.length := by
  by_contra hlt
  have hpre : inside' ++ [t] <+: inside := by
    have hleft : inside' ++ [t] <+: inside' ++ t :: after' := ⟨after', by simp⟩
    have hright : inside <+: inside' ++ t :: after' := ⟨after, he⟩
    exact List.prefix_of_prefix_length_le hleft hright (by simp; omega)
  have := h.openCount_nonneg hpre
  simp [h'.openCount_eq_zero, ht, TokenKind.turn] at this

/-- The closing delimiter behind balanced tokens is where they end. -/
theorem partner_unique {inside inside' after after' : List Token} {t t' : Token}
    {d d' : Delimiter} (ht : t.kind = .closer d) (ht' : t'.kind = .closer d')
    (h : Balanced inside) (h' : Balanced inside')
    (he : inside ++ t :: after = inside' ++ t' :: after') :
    inside = inside' ∧ t = t' ∧ after = after' := by
  have hle := length_le_of_closer ht' h h' he
  have hge := length_le_of_closer ht h' h he.symm
  obtain ⟨hi, hr⟩ := List.append_inj he (Nat.le_antisymm hle hge)
  exact ⟨hi, List.cons_eq_cons.1 hr⟩

/-- Every opening delimiter has a partner. -/
theorem exists_partner {ts before tail : List Token} {d : Delimiter} {o : Span}
    (h : Balanced ts) (he : ts = before ++ ⟨.opener d, o⟩ :: tail) :
    ∃ inside c after, tail = inside ++ ⟨.closer d, c⟩ :: after ∧ Balanced inside := by
  induction h generalizing before tail with
  | nil => simp at he
  | @token t ts ht h ih =>
    cases before with
    | nil =>
      obtain ⟨rfl, -⟩ := List.cons_eq_cons.1 he
      simp [TokenKind.isDelimiter] at ht
    | cons u before => exact ih (List.cons_eq_cons.1 he).2
  | @group d' o' c' inside ts hi h ihi ih =>
    cases before with
    | nil =>
      simp only [List.nil_append, List.cons.injEq, Token.mk.injEq, TokenKind.opener.injEq] at he
      obtain ⟨⟨rfl, -⟩, rfl⟩ := he
      exact ⟨inside, c', ts, rfl, hi⟩
    | cons u before =>
      rcases List.append_eq_append_iff.1 (List.cons_eq_cons.1 he).2 with
        ⟨left, hbefore, hts⟩ | ⟨left, hinside, htail⟩
      · cases left with
        | nil => simp at hts
        | cons v left => exact ih (List.cons_eq_cons.1 hts).2
      · cases left with
        | nil => simp at htail
        | cons v left =>
          obtain ⟨rfl, rfl⟩ := List.cons_eq_cons.1 htail
          obtain ⟨body, c, after, rfl, hb⟩ := ihi hinside
          exact ⟨body, c, after ++ ⟨.closer d', c'⟩ :: ts, by simp, hb⟩

end Balanced

namespace Nest

mutual

/-- No single token of a nest is a delimiter. -/
def IsProper : Nest → Prop
  | token t => t.kind.isDelimiter = false
  | group _ _ _ body => AreProper body

def AreProper : List Nest → Prop
  | [] => True
  | n :: ns => IsProper n ∧ AreProper ns

end

@[simp] theorem isProper_token (t : Token) :
    IsProper (token t) ↔ t.kind.isDelimiter = false := by simp [IsProper]

@[simp] theorem isProper_group (d : Delimiter) (o c : Span) (body : List Nest) :
    IsProper (group d o c body) ↔ AreProper body := by simp [IsProper]

@[simp] theorem areProper_nil : AreProper [] := by simp [AreProper]

@[simp] theorem areProper_cons (n : Nest) (ns : List Nest) :
    AreProper (n :: ns) ↔ IsProper n ∧ AreProper ns := by simp [AreProper]

theorem areProper_iff (ns : List Nest) : AreProper ns ↔ ∀ n ∈ ns, IsProper n := by
  induction ns with
  | nil => simp
  | cons n ns ih => simp [ih]

@[simp] theorem areProper_append (xs ys : List Nest) :
    AreProper (xs ++ ys) ↔ AreProper xs ∧ AreProper ys := by
  simp [areProper_iff, or_imp, forall_and]

@[simp] theorem areProper_reverse (ns : List Nest) : AreProper ns.reverse ↔ AreProper ns := by
  simp [areProper_iff]

@[simp] theorem tokens_token (t : Token) : tokens (token t) = [t] := rfl

@[simp] theorem tokens_group (d : Delimiter) (o c : Span) (body : List Nest) :
    tokens (group d o c body) = ⟨.opener d, o⟩ :: (tokensOf body ++ [⟨.closer d, c⟩]) := rfl

@[simp] theorem tokensOf_nil : tokensOf [] = [] := rfl

@[simp] theorem tokensOf_cons (n : Nest) (ns : List Nest) :
    tokensOf (n :: ns) = tokens n ++ tokensOf ns := rfl

@[simp] theorem tokensOf_append (xs ys : List Nest) :
    tokensOf (xs ++ ys) = tokensOf xs ++ tokensOf ys := by
  induction xs with
  | nil => rfl
  | cons n ns ih => simp [ih]

mutual

theorem balanced_tokens (n : Nest) (h : IsProper n) : Balanced (tokens n) :=
  match n with
  | token t => .token (by simpa using h) .nil
  | group _ _ _ body => .group (balanced_tokensOf body (by simpa using h)) .nil

theorem balanced_tokensOf (ns : List Nest) (h : AreProper ns) : Balanced (tokensOf ns) :=
  match ns with
  | [] => .nil
  | n :: ns =>
    have h := (areProper_cons n ns).1 h
    (balanced_tokens n h.1).append (balanced_tokensOf ns h.2)

end

theorem exists_of_balanced {ts : List Token} (h : Balanced ts) :
    ∃ ns, AreProper ns ∧ tokensOf ns = ts := by
  induction h with
  | nil => exact ⟨[], by simp⟩
  | @token t ts ht h ih =>
    obtain ⟨ns, hp, rfl⟩ := ih
    exact ⟨.token t :: ns, by simp [ht, hp], rfl⟩
  | @group d o c inside ts hi h ihi ih =>
    obtain ⟨body, hb, rfl⟩ := ihi
    obtain ⟨ns, hp, rfl⟩ := ih
    exact ⟨.group d o c body :: ns, by simp [hb, hp], by simp⟩

theorem build_token {t : Token} (ht : t.kind.isDelimiter = false) (pending : List Pending)
    (done : List Nest) (ts : List Token) :
    build pending done (t :: ts) = build pending (token t :: done) ts := by
  obtain ⟨kind, span⟩ := t
  cases kind <;> simp_all [build, TokenKind.isDelimiter]

mutual

theorem build_tokens (n : Nest) (h : IsProper n) (pending : List Pending) (done : List Nest)
    (ts : List Token) : build pending done (tokens n ++ ts) = build pending (n :: done) ts :=
  match n with
  | token t => build_token (by simpa using h) pending done ts
  | group d o c body => by
    have hb := build_tokensOf body (by simpa using h) (⟨d, o, done⟩ :: pending) []
      (⟨.closer d, c⟩ :: ts)
    simp [build, hb]

theorem build_tokensOf (ns : List Nest) (h : AreProper ns) (pending : List Pending)
    (done : List Nest) (ts : List Token) :
    build pending done (tokensOf ns ++ ts) = build pending (ns.reverse ++ done) ts :=
  match ns with
  | [] => rfl
  | n :: ns => by
    have h := (areProper_cons n ns).1 h
    simp [build_tokens n h.1, build_tokensOf ns h.2]

end

/-- Nests are found again in their tokens. -/
theorem ofTokens_tokensOf {ns : List Nest} (h : AreProper ns) : ofTokens (tokensOf ns) = .ok ns := by
  have := build_tokensOf ns h [] [] []
  simpa [ofTokens, build] using this

/-- Tokens determine their nests. -/
theorem tokensOf_injective {ms ns : List Nest} (hm : AreProper ms) (hn : AreProper ns)
    (h : tokensOf ms = tokensOf ns) : ms = ns := by
  have hok := ofTokens_tokensOf hm
  rw [h, ofTokens_tokensOf hn] at hok
  exact (Except.ok.inj hok).symm

/-- The tokens that were read so far. -/
def readTokens : List Pending → List Nest → List Token
  | [], done => tokensOf done.reverse
  | p :: outer, done =>
    readTokens outer p.before ++ ⟨.opener p.delimiter, p.opening⟩ :: tokensOf done.reverse

theorem readTokens_cons (pending : List Pending) (n : Nest) (done : List Nest) :
    readTokens pending (n :: done) = readTokens pending done ++ tokens n := by
  cases pending <;> simp [readTokens]

theorem build_sound {pending : List Pending} {done ns : List Nest} {ts : List Token}
    (h : build pending done ts = .ok ns) (hp : ∀ p ∈ pending, AreProper p.before)
    (hd : AreProper done) : AreProper ns ∧ tokensOf ns = readTokens pending done ++ ts := by
  fun_induction build pending done ts with
  | case1 done =>
    obtain rfl := Except.ok.inj h
    simpa [readTokens] using hd
  | case2 => cases h
  | case3 pending done t ts delimiter hk ih =>
    obtain ⟨kind, span⟩ := t
    cases hk
    have := ih h (by simpa [hd] using hp) areProper_nil
    simpa [readTokens] using this
  | case4 => cases h
  | case5 done t ts innermost outer hk ih =>
    obtain ⟨kind, span⟩ := t
    cases hk
    have := ih h (fun p hm => hp p (List.mem_cons_of_mem _ hm))
      (by simpa [hd] using hp innermost List.mem_cons_self)
    simpa [readTokens, readTokens_cons] using this
  | case6 => cases h
  | case7 pending done t ts hopen hnone hsome ih =>
    have ht : t.kind.isDelimiter = false := by
      cases hk : t.kind with
      | opener d => exact (hopen d hk).elim
      | closer d =>
        cases pending with
        | nil => exact (hnone d hk rfl).elim
        | cons innermost outer => exact (hsome d innermost outer hk rfl).elim
      | _ => rfl
    have := ih h hp (by simp [ht, hd])
    simpa [readTokens_cons] using this

theorem ofTokens_sound {ts : List Token} {ns : List Nest} (h : ofTokens ts = .ok ns) :
    AreProper ns ∧ tokensOf ns = ts := by
  simpa [readTokens] using build_sound h (by simp) areProper_nil

/-- The token at the front of nests closes nothing. -/
theorem ne_closer_of_tokensOf {ns : List Nest} (h : AreProper ns) {t : Token} {ts : List Token}
    (he : tokensOf ns = t :: ts) (d : Delimiter) : t.kind ≠ .closer d := by
  intro ht
  have hpre : [t] <+: tokensOf ns := by simp [he]
  have := (balanced_tokensOf ns h).openCount_nonneg hpre
  simp [ht, TokenKind.turn] at this

theorem eq_token_cons {ns : List Nest} (h : AreProper ns) {t : Token} {ts : List Token}
    (ht : t.kind.isDelimiter = false) (he : tokensOf ns = t :: ts) :
    ∃ rest, ns = token t :: rest ∧ tokensOf rest = ts := by
  cases ns with
  | nil => cases he
  | cons n rest =>
    cases n with
    | token u =>
      simp only [tokensOf_cons, tokens_token, List.singleton_append, List.cons.injEq] at he
      exact ⟨rest, by rw [he.1], he.2⟩
    | group d o c body =>
      simp only [tokensOf_cons, tokens_group, List.cons_append, List.cons.injEq] at he
      simp [← he.1, TokenKind.isDelimiter] at ht

theorem eq_group_cons {ns : List Nest} (h : AreProper ns) {d : Delimiter} {o c : Span}
    {inside ts : List Token} (hi : Balanced inside)
    (he : tokensOf ns = ⟨.opener d, o⟩ :: (inside ++ ⟨.closer d, c⟩ :: ts)) :
    ∃ body rest, ns = group d o c body :: rest ∧ tokensOf body = inside ∧ tokensOf rest = ts := by
  cases ns with
  | nil => cases he
  | cons n rest =>
    cases n with
    | token u =>
      simp only [tokensOf_cons, tokens_token, List.singleton_append, List.cons.injEq] at he
      simp [he.1, TokenKind.isDelimiter] at h
    | group d' o' c' body =>
      simp only [tokensOf_cons, tokens_group, List.cons_append, List.cons.injEq,
        Token.mk.injEq, TokenKind.opener.injEq, List.append_assoc, List.nil_append] at he
      obtain ⟨⟨rfl, rfl⟩, hrest⟩ := he
      have hb := balanced_tokensOf body (by simp at h; exact h.1)
      obtain ⟨rfl, hc, rfl⟩ := Balanced.partner_unique rfl rfl hb hi hrest
      obtain rfl := congrArg Token.span hc
      exact ⟨body, rest, rfl, rfl, rfl⟩

/-- A token that has balanced tokens before it stands among the outermost nests. -/
theorem eq_append_token {ns : List Nest} (h : AreProper ns) {t : Token} {before after : List Token}
    (ht : t.kind.isDelimiter = false) (hb : Balanced before)
    (he : tokensOf ns = before ++ t :: after) :
    ∃ left right, ns = left ++ token t :: right ∧ tokensOf left = before ∧
      tokensOf right = after := by
  induction hb generalizing ns with
  | nil =>
    obtain ⟨rest, rfl, hr⟩ := eq_token_cons h ht he
    exact ⟨[], rest, rfl, rfl, hr⟩
  | @token u us hu hus ih =>
    obtain ⟨rest, rfl, hr⟩ := eq_token_cons h hu he
    obtain ⟨left, right, rfl, rfl, hright⟩ := ih ((areProper_cons _ _).1 h).2 hr
    exact ⟨token u :: left, right, rfl, rfl, hright⟩
  | @group d o c inside us hi hus ihi ih =>
    obtain ⟨body, rest, rfl, rfl, hr⟩ := eq_group_cons h hi (by simpa using he)
    obtain ⟨left, right, rfl, rfl, hright⟩ := ih ((areProper_cons _ _).1 h).2 hr
    exact ⟨group d o c body :: left, right, rfl, by simp, hright⟩

/-- Behind any place of balanced tokens stand nests, up to the end of the group around it. -/
theorem exists_front {ts before us : List Token} (h : Balanced ts) (he : ts = before ++ us) :
    ∃ ns tail, AreProper ns ∧ us = tokensOf ns ++ tail ∧
      ∀ t ∈ tail.head?, ∃ d, t.kind = .closer d := by
  induction h generalizing before us with
  | nil =>
    obtain ⟨-, rfl⟩ := List.append_eq_nil_iff.1 he.symm
    exact ⟨[], [], by simp, rfl, by simp⟩
  | @token t ts ht h ih =>
    cases before with
    | nil =>
      obtain rfl : t :: ts = us := he
      obtain ⟨ns, hp, hns⟩ := exists_of_balanced (.token ht h)
      exact ⟨ns, [], hp, by simp [hns], by simp⟩
    | cons u before => exact ih (List.cons_eq_cons.1 he).2
  | @group d o c inside ts hi h ihi ih =>
    cases before with
    | nil =>
      obtain rfl : _ = us := he
      obtain ⟨ns, hp, hns⟩ := exists_of_balanced (.group hi h)
      exact ⟨ns, [], hp, by rw [hns, List.append_nil], by simp⟩
    | cons u before =>
      rcases List.append_eq_append_iff.1 (List.cons_eq_cons.1 he).2 with
        ⟨left, rfl, hts⟩ | ⟨left, hinside, rfl⟩
      · rcases List.cons_eq_append_iff.1 hts with ⟨-, rfl⟩ | ⟨left, -, rfl⟩
        · exact ⟨[], _, by simp, rfl, by simp⟩
        · exact ih rfl
      · obtain ⟨ns, tail, hp, rfl, ht⟩ := ihi hinside
        refine ⟨ns, tail ++ ⟨.closer d, c⟩ :: ts, hp, by simp, ?_⟩
        cases tail with
        | nil => simp
        | cons v tail => simpa using ht

mutual

/-- The number of groups of a nest that enclose one another. -/
def height : Nest → Nat
  | token _ => 0
  | group _ _ _ body => heights body + 1

def heights : List Nest → Nat
  | [] => 0
  | n :: ns => max (height n) (heights ns)

end

@[simp] theorem heights_nil : heights [] = 0 := rfl

@[simp] theorem heights_cons (n : Nest) (ns : List Nest) :
    heights (n :: ns) = max (height n) (heights ns) := rfl

@[simp] theorem height_token (t : Token) : height (token t) = 0 := rfl

@[simp] theorem height_group (d : Delimiter) (o c : Span) (body : List Nest) :
    height (group d o c body) = heights body + 1 := rfl

theorem height_le_heights {n : Nest} {ns : List Nest} (h : n ∈ ns) : height n ≤ heights ns := by
  induction ns with
  | nil => cases h
  | cons m ns ih =>
    rcases List.mem_cons.1 h with rfl | h
    · exact Nat.le_max_left _ _
    · exact Nat.le_trans (ih h) (Nat.le_max_right _ _)

theorem heights_le_iff {ns : List Nest} {k : Nat} : heights ns ≤ k ↔ ∀ n ∈ ns, height n ≤ k := by
  constructor
  · intro h n hn
    exact Nat.le_trans (height_le_heights hn) h
  · intro h
    induction ns with
    | nil => simp
    | cons n ns ih =>
      exact Nat.max_le.2 ⟨h n List.mem_cons_self,
        ih fun m hm => h m (List.mem_cons_of_mem _ hm)⟩

mutual

/-- As many delimiters as a nest is high are open at some place inside it. -/
theorem exists_height (n : Nest) (h : IsProper n) :
    ∃ before, before <+: tokens n ∧ openCount before = height n :=
  match n with
  | token t => ⟨[], List.nil_prefix, rfl⟩
  | group d o c body => by
    obtain ⟨before, hb, hc⟩ := exists_heights body (by simpa using h)
    refine ⟨⟨.opener d, o⟩ :: before, ?_, ?_⟩
    · exact List.cons_prefix_cons.2 ⟨rfl, hb.trans (List.prefix_append _ _)⟩
    · simp [hc, TokenKind.turn]
      omega

theorem exists_heights (ns : List Nest) (h : AreProper ns) :
    ∃ before, before <+: tokensOf ns ∧ openCount before = heights ns :=
  match ns with
  | [] => ⟨[], List.nil_prefix, rfl⟩
  | n :: ns => by
    have h := (areProper_cons n ns).1 h
    rcases Nat.le_total (heights ns) (height n) with hle | hle
    · obtain ⟨before, hb, hc⟩ := exists_height n h.1
      exact ⟨before, hb.trans (List.prefix_append _ _), by simp [hc, hle]⟩
    · obtain ⟨before, hb, hc⟩ := exists_heights ns h.2
      refine ⟨tokens n ++ before, (List.prefix_append_right_inj _).2 hb, ?_⟩
      simp [(balanced_tokens n h.1).openCount_eq_zero, hc, hle]

end

/-- What is inside some open delimiters is the less high. -/
theorem heights_le_of_nestsWithin {limit : Nat} {ns : List Nest} {before after : List Token}
    (hp : AreProper ns) (h : NestsWithin limit (before ++ tokensOf ns ++ after)) :
    openCount before + heights ns ≤ limit := by
  obtain ⟨inside, hi, hc⟩ := exists_heights ns hp
  have := h (before ++ inside)
    (((List.prefix_append_right_inj _).2 hi).trans (List.prefix_append _ _))
  simpa [hc] using this

end Nest
end DesignTokens.Script
