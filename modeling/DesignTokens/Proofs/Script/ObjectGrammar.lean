import DesignTokens.Proofs.Script.Accepted
import DesignTokens.Proofs.Script.Depth
import DesignTokens.Proofs.Script.ParserNests
import Mathlib.Data.List.Forall2

/-! # The grammar of object literals

Whether a group in braces is an object literal is settled by the runs between its own commas, and
of each run only by how it begins and by the semicolons outside of its groups. What stands inside
of a value is of no account. -/
namespace DesignTokens.Script
open Text (Span)
open Nest

/-- The runs between the commas that are outside of any group, `level` delimiters being open. -/
def splitAtCommas (level : Int) : List Token → List (List Token)
  | [] => [[]]
  | t :: ts =>
    if level = 0 ∧ t.kind = .comma then [] :: splitAtCommas level ts
    else (splitAtCommas (level + t.kind.turn) ts).modifyHead (t :: ·)

/-- The runs that members are read from: there is none behind a comma at the end. -/
def memberSlices (body : List Token) : List (List Token) :=
  let slices := splitAtCommas 0 body
  if slices.getLast? = some [] then slices.dropLast else slices

/-- Some tokens, with no semicolon outside of groups. -/
def IsRest (ts : List Token) : Prop :=
  ts ≠ [] ∧ ∀ before t after, ts = before ++ t :: after → openCount before = 0 →
    t.kind ≠ .semicolon

/-- The tokens of a key, with its name where it is not computed. -/
inductive IsKey : List Token → Option String → Prop
  | identifier (name : String) (span : Span) : IsKey [⟨.identifier name, span⟩] (some name)
  | string (name : String) (span : Span) : IsKey [⟨.string name, span⟩] (some name)
  | number (value : Binary64) (span : Span) :
      IsKey [⟨.number value, span⟩] (some value.numeral)
  | computed (o c : Span) {inside : List Token} (h : Balanced inside) :
      IsKey (⟨.opener .bracket, o⟩ :: (inside ++ [⟨.closer .bracket, c⟩])) none

/-- A member without its value. -/
inductive MemberShape
  | spread
  | pair (key : Option String)

def Member.shape : Member → MemberShape
  | .spread _ => .spread
  | .pair key _ => .pair key

/-- The tokens of a member. -/
inductive IsMember : List Token → MemberShape → Prop
  | spread (span : Span) {rest : List Token} (h : IsRest rest) :
      IsMember (⟨.spread, span⟩ :: rest) .spread
  | value {name rest : List Token} {key : Option String} (hk : IsKey name key) (span : Span)
      (h : IsRest rest) : IsMember (name ++ ⟨.colon, span⟩ :: rest) (.pair key)
  | method {name parameters body : List Token} {key : Option String} (hk : IsKey name key)
      (o c b : Span) (hp : Balanced parameters) (h : IsRest (⟨.opener .brace, b⟩ :: body)) :
      IsMember (name ++ ⟨.opener .parenthesis, o⟩ ::
        (parameters ++ ⟨.closer .parenthesis, c⟩ :: ⟨.opener .brace, b⟩ :: body)) (.pair key)
  | shorthand (name : String) (span : Span) :
      IsMember [⟨.identifier name, span⟩] (.pair (some name))

theorem splitAtCommas_cons_of_not_comma {level : Int} {t : Token} (ts : List Token)
    (h : level = 0 → t.kind ≠ .comma) :
    splitAtCommas level (t :: ts) =
      (splitAtCommas (level + t.kind.turn) ts).modifyHead (t :: ·) := by
  rw [splitAtCommas, if_neg fun hc => h hc.1 hc.2]

mutual

theorem splitAtCommas_nest (n : Nest) (hp : n.IsProper) {level : Int} (h0 : 0 ≤ level)
    (hc : level = 0 → n.isKind .comma = false) (more : List Token) :
    splitAtCommas level (n.tokens ++ more) =
      (splitAtCommas level more).modifyHead (n.tokens ++ ·) :=
  match n with
  | .token t => by
    have ht : t.kind.isDelimiter = false := by simpa using hp
    rw [tokens_token, List.singleton_append,
      splitAtCommas_cons_of_not_comma _ (by simpa [isKind, kind?] using hc),
      TokenKind.turn_eq_zero ht, Int.add_zero]
    rfl
  | .group d o c body => by
    have hinside : 0 ≤ level + 1 := by omega
    have hb := splitAtCommas_nests body (by simpa using hp) hinside (by omega)
      (⟨.closer d, c⟩ :: more)
    rw [tokens_group, List.cons_append, splitAtCommas_cons_of_not_comma _ (by simp),
      List.append_assoc, List.singleton_append, TokenKind.turn, hb,
      splitAtCommas_cons_of_not_comma _ (by simp), TokenKind.turn, Int.add_neg_cancel_right,
      List.modifyHead_modifyHead, List.modifyHead_modifyHead]
    congr 1
    funext ts
    simp

theorem splitAtCommas_nests (ns : List Nest) (hp : AreProper ns) {level : Int} (h0 : 0 ≤ level)
    (hc : level = 0 → ∀ n ∈ ns, n.isKind .comma = false) (more : List Token) :
    splitAtCommas level (tokensOf ns ++ more) =
      (splitAtCommas level more).modifyHead (tokensOf ns ++ ·) :=
  match ns with
  | [] => by
    have : (fun ts : List Token => tokensOf [] ++ ts) = id := rfl
    rw [this, List.modifyHead_id]
    rfl
  | n :: ns => by
    obtain ⟨hn, hns⟩ := (areProper_cons n ns).1 hp
    rw [tokensOf_cons, List.append_assoc,
      splitAtCommas_nest n hn h0 fun h => hc h n List.mem_cons_self,
      splitAtCommas_nests ns hns h0 fun h m hm => hc h m (List.mem_cons_of_mem _ hm),
      List.modifyHead_modifyHead]
    congr 1
    funext ts
    simp

end

private theorem splitAtCommas_tokensOf (ns : List Nest) (hp : AreProper ns) :
    splitAtCommas 0 (tokensOf ns) = (slices ns).map tokensOf := by
  induction ns with
  | nil => rfl
  | cons n ns ih =>
    obtain ⟨hn, hns⟩ := (areProper_cons n ns).1 hp
    simp only [slices]
    split
    · rename_i h
      obtain ⟨span, rfl⟩ := exists_token_of_isKind h
      rw [tokensOf_cons, tokens_token, List.singleton_append, splitAtCommas, if_pos ⟨rfl, rfl⟩,
        ih hns]
      rfl
    · rename_i h
      rw [tokensOf_cons, splitAtCommas_nest n hn (Int.le_refl 0) (fun _ => by simpa using h), ih hns]
      cases hs : slices ns with
      | nil => exact (slices_ne_nil ns hs).elim
      | cons slice rest => rfl

private theorem tokensOf_eq_nil {ns : List Nest} (h : tokensOf ns = []) : ns = [] := by
  cases ns with
  | nil => rfl
  | cons n ns => cases n <;> simp at h

theorem memberSlices_tokensOf (ns : List Nest) (hp : AreProper ns) :
    memberSlices (tokensOf ns) = (dropEmptyLast (slices ns)).map tokensOf := by
  have hlast : ((slices ns).map tokensOf).getLast? = some [] ↔
      (slices ns).getLast? = some [] := by
    rw [List.getLast?_map, Option.map_eq_some_iff]
    constructor
    · rintro ⟨run, h, he⟩
      rw [h, tokensOf_eq_nil he]
    · intro h
      exact ⟨[], h, rfl⟩
  rw [memberSlices, splitAtCommas_tokensOf ns hp]
  by_cases h : (slices ns).getLast? = some []
  · rw [if_pos (hlast.2 h), dropEmptyLast_of_empty h, List.map_dropLast]
  · rw [if_neg (mt hlast.1 h), dropEmptyLast_of_nonempty h]

/-- What stands before a token outside of groups is balanced. -/
theorem balanced_of_openCount {ns : List Nest} (hp : AreProper ns) {t : Token}
    {before after : List Token} (h0 : openCount before = 0)
    (he : tokensOf ns = before ++ t :: after) : Balanced before := by
  induction ns generalizing before with
  | nil => simp at he
  | cons n ns ih =>
    obtain ⟨hn, hns⟩ := (areProper_cons n ns).1 hp
    rcases List.append_eq_append_iff.1 he with ⟨left, rfl, hts⟩ | ⟨left, hin, hts⟩
    · simp only [openCount_append, (balanced_tokens n hn).openCount_eq_zero, Int.zero_add] at h0
      exact (balanced_tokens n hn).append (ih hns h0 hts)
    · cases before with
      | nil => exact .nil
      | cons u before =>
        cases n with
        | token v =>
          simp only [tokens_token, List.cons_append, List.cons.injEq, List.nil_eq,
            List.append_eq_nil_iff] at hin
          obtain ⟨rfl, rfl, rfl⟩ := hin
          exact .token (by simpa using hn) .nil
        | group d o c body =>
          simp only [tokens_group, List.cons_append, List.cons.injEq] at hin
          obtain ⟨rfl, hin⟩ := hin
          have hb := balanced_tokensOf body (by simpa using hn)
          rcases List.append_eq_append_iff.1 hin with ⟨last, rfl, hl⟩ | ⟨last, hbody, -⟩
          · rcases List.cons_eq_append_iff.1 hl with ⟨rfl, rfl⟩ | ⟨last, rfl, hl⟩
            · simp [TokenKind.turn, hb.openCount_eq_zero] at h0
            · obtain ⟨rfl, rfl⟩ : last = [] ∧ left = [] := by simpa using hl
              exact .group hb .nil
          · have hpre : before <+: tokensOf body := ⟨last, hbody.symm⟩
            have := hb.openCount_nonneg hpre
            simp [TokenKind.turn] at h0
            omega

/-- In nests: some of them, and none is a semicolon. -/
theorem isRest_tokensOf_iff {run : List Nest} (hp : AreProper run) :
    IsRest (tokensOf run) ↔ run ≠ [] ∧ ∀ n ∈ run, n.isKind .semicolon = false := by
  constructor
  · rintro ⟨hne, hs⟩
    refine ⟨fun h => hne (by rw [h]; rfl), fun n hn => ?_⟩
    by_contra hk
    obtain ⟨left, right, rfl⟩ := List.append_of_mem hn
    have hk : n.isKind .semicolon := by simpa using hk
    obtain ⟨t, ts, htok, -⟩ := tokens_eq_cons n
    have ht := (isKind_iff htok rfl).1 hk
    obtain ⟨rfl, -⟩ := eq_token_of_isKind htok hk
    obtain ⟨hleft, -⟩ := (areProper_append _ _).1 hp
    exact hs (tokensOf left) t (tokensOf right) (by simp)
      (balanced_tokensOf left hleft).openCount_eq_zero ht
  · rintro ⟨hne, hs⟩
    refine ⟨fun h => hne (tokensOf_eq_nil h), fun before t after he h0 ht => ?_⟩
    have hd : t.kind.isDelimiter = false := by rw [ht]; rfl
    obtain ⟨left, right, rfl, -, -⟩ :=
      eq_append_token hp hd (balanced_of_openCount hp h0 he) he
    have := hs (.token t) (by simp)
    simp [isKind, kind?, ht] at this

/-- Some result is read. -/
def Succeeds {α : Type} (r : Reading α) : Prop := ∃ a, r = .ok a

namespace Reading

theorem dynamic_succeeds_iff {depth : Nat} (start : Nat) {run : List Nest}
    (hd : depth + heights run ≤ maxNesting) :
    Succeeds (dynamic depth start run) ↔
      run ≠ [] ∧ ∀ n ∈ run, n.isKind .semicolon = false := by
  have hd1 : depth + 1 + heights run ≤ maxNesting + 1 := by omega
  obtain ⟨-, hne⟩ := found_settled hd1 hd1 (run.takeWhile fun n => !n.isKind .semicolon)
    (heights_le_of_subset fun n hn => List.takeWhile_subset _ hn)
  rw [dynamic]
  split
  · rename_i hlast
    simp [Succeeds, List.getLast?_eq_none_iff.1 hlast]
  · rename_i last hlast
    have hrun : run ≠ [] := by
      rintro rfl
      cases hlast
    split
    · exact (hne _ ‹_›).elim
    · split
      · rename_i hany
        obtain ⟨n, hn, hk⟩ := List.any_eq_true.1 hany
        simp only [Succeeds, reduceCtorEq, exists_false, false_iff]
        rintro ⟨-, hs⟩
        rw [hs n hn] at hk
        cases hk
      · rename_i hany
        simp only [Succeeds, Except.ok.injEq, exists_eq', true_iff]
        refine ⟨hrun, fun n hn => ?_⟩
        simpa using fun hk => hany (List.any_eq_true.2 ⟨n, hn, hk⟩)

/-- A nest that is a literal is no semicolon. -/
theorem isKind_of_literal {depth : Nat} {n : Nest} {expr : Expr}
    (h : literal depth n = .ok expr) : n.isKind .semicolon = false := by
  cases n with
  | token t =>
    obtain ⟨kind, span⟩ := t
    rw [literal_token] at h
    cases kind <;> simp_all [Nest.constant?, isKind, kind?]
  | group d o c body => simp [isKind, kind?]

theorem value_succeeds_iff {depth : Nat} {run : List Nest}
    (hd : depth + heights run ≤ maxNesting) :
    Succeeds (value depth run) ↔ run ≠ [] ∧ ∀ n ∈ run, n.isKind .semicolon = false := by
  cases run with
  | nil =>
    rw [value]
    simp [Succeeds]
  | cons first rest =>
    have hdyn := dynamic_succeeds_iff first.span.start hd
    obtain ⟨-, hne⟩ := literal_settled hd hd first (height_le_heights List.mem_cons_self)
    rw [value]
    split
    · exact (hne _ ‹_›).elim
    · exact hdyn
    · rename_i expr hlit
      split
      · rename_i hempty
        obtain rfl := List.isEmpty_iff.1 hempty
        simpa [Succeeds] using isKind_of_literal hlit
      · exact hdyn

end Reading

/-- The nest that a key is. -/
theorem IsKey.eq_cons {name more : List Token} {key : Option String} (hk : IsKey name key)
    {run : List Nest} (hp : AreProper run) (he : tokensOf run = name ++ more) :
    ∃ n rest, run = n :: rest ∧ n.key? = some key ∧ n.isKind .spread = false ∧
      tokensOf rest = more := by
  cases hk with
  | computed o c h =>
    obtain ⟨body, rest, rfl, -, hr⟩ := eq_group_cons hp h (by simpa using he)
    exact ⟨_, rest, rfl, rfl, rfl, hr⟩
  | _ =>
    obtain ⟨rest, rfl, hr⟩ := eq_token_cons hp rfl he
    exact ⟨_, rest, rfl, rfl, by simp [isKind, kind?], hr⟩

private theorem isKey_tokens {n : Nest} (hp : n.IsProper) {key : Option String}
    (h : n.key? = some key) : IsKey n.tokens key := by
  cases n with
  | token t =>
    obtain ⟨kind, span⟩ := t
    cases kind with
    | identifier name =>
      obtain rfl := Option.some.inj h
      exact .identifier name span
    | string name =>
      obtain rfl := Option.some.inj h
      exact .string name span
    | number value =>
      obtain rfl := Option.some.inj h
      exact .number value span
    | _ => cases h
  | group d o c body =>
    cases d with
    | bracket =>
      obtain rfl := Option.some.inj h
      exact .computed o c (balanced_tokensOf body (by simpa using hp))
    | _ => cases h

theorem Succeeds.of_map {α β : Type} {r : Reading α} {f : α → β} {b : β} (h : r.map f = .ok b) :
    Succeeds r ∧ ∃ a, b = f a := by
  cases r with
  | error failure => cases h
  | ok a => exact ⟨⟨a, rfl⟩, a, (Except.ok.inj h).symm⟩

theorem Succeeds.map {α β : Type} {r : Reading α} (f : α → β) (h : Succeeds r) :
    Succeeds (r.map f) := by
  obtain ⟨a, rfl⟩ := h
  exact ⟨f a, rfl⟩

theorem exists_group_of_isGroup {n : Nest} {d : Delimiter} (h : n.isGroup d) :
    ∃ o c body, n = .group d o c body := by
  cases n with
  | token t => cases h
  | group d' o c body =>
    obtain rfl : d' = d := by simpa [isGroup] using h
    exact ⟨o, c, body, rfl⟩

private theorem exists_identifier_of_isShorthand {n : Nest} (h : n.isShorthand) :
    ∃ name span, n = .token ⟨.identifier name, span⟩ := by
  cases n with
  | token t =>
    obtain ⟨kind, span⟩ := t
    cases kind with
    | identifier name => exact ⟨name, span, rfl⟩
    | _ => cases h
  | group d o c body => cases h

/-- What is read behind a key has the form of a value, of a method or of nothing. -/
theorem isMember_continued {depth : Nat} {first next : Nest} {more : List Nest}
    (hp : AreProper (first :: next :: more)) {key : Option String}
    (hs : first.isKind .spread = false) (hkey : first.key? = some key)
    (hd : depth + heights more ≤ maxNesting) {m : Member}
    (h : Reading.member depth (first :: next :: more) = .ok m) :
    IsMember (tokensOf (first :: next :: more)) m.shape := by
  obtain ⟨hfirst, hnext, hmore⟩ : first.IsProper ∧ next.IsProper ∧ AreProper more := by
    simpa using hp
  have hk := isKey_tokens hfirst hkey
  by_cases hc : next.isKind .colon
  · rw [Reading.member_pair hs hkey hc] at h
    obtain ⟨hv, e, rfl⟩ := Succeeds.of_map h
    obtain ⟨span, rfl⟩ := exists_token_of_isKind hc
    exact .value hk span
      ((isRest_tokensOf_iff hmore).2 ((Reading.value_succeeds_iff hd).1 hv))
  have hc : next.isKind .colon = false := by simpa using hc
  by_cases hg : next.isGroup .parenthesis
  · rw [Reading.member_method hs hkey hc hg] at h
    obtain ⟨hv, e, rfl⟩ := Succeeds.of_map h
    split at hv
    · rename_i hb
      obtain ⟨o, c, parameters, rfl⟩ := exists_group_of_isGroup hg
      cases more with
      | nil => cases hb
      | cons block others =>
        obtain ⟨b, b', body, rfl⟩ := exists_group_of_isGroup (by simpa using hb)
        have hrest : IsRest (⟨.opener .brace, b⟩ ::
            (tokensOf body ++ ⟨.closer .brace, b'⟩ :: tokensOf others)) := by
          simpa using (isRest_tokensOf_iff hmore).2 ((Reading.dynamic_succeeds_iff _ hd).1 hv)
        have hp : Balanced (tokensOf parameters) :=
          balanced_tokensOf parameters (by simpa using hnext)
        have := IsMember.method hk o c b hp hrest
        simpa [Member.shape] using this
    · obtain ⟨a, ha⟩ := hv
      cases ha
  · rw [Reading.member_other hs hkey hc (by simpa using hg)] at h
    cases h

/-- What is read as a member has the form of one. -/
theorem isMember_of_member {depth : Nat} {run : List Nest} (hp : AreProper run)
    (hd : depth + heights run ≤ maxNesting) {m : Member} (h : Reading.member depth run = .ok m) :
    IsMember (tokensOf run) m.shape := by
  cases run with
  | nil =>
    rw [Reading.member_nil] at h
    cases h
  | cons first rest =>
    obtain ⟨hfirst, hrest⟩ := (areProper_cons first rest).1 hp
    have hdrest : depth + heights rest ≤ maxNesting := by simp at hd; omega
    by_cases hs : first.isKind .spread
    · rw [Reading.member_spread hs] at h
      obtain ⟨hv, e, rfl⟩ := Succeeds.of_map h
      obtain ⟨span, rfl⟩ := exists_token_of_isKind hs
      exact .spread span ((isRest_tokensOf_iff hrest).2 ((Reading.value_succeeds_iff hdrest).1 hv))
    have hs : first.isKind .spread = false := by simpa using hs
    cases hkey : first.key? with
    | none =>
      rw [Reading.member_keyless hs hkey] at h
      cases h
    | some key =>
      cases rest with
      | nil =>
        rw [Reading.member_single hs hkey] at h
        split at h
        · rename_i hshort
          obtain rfl := Except.ok.inj h
          obtain ⟨name, span, rfl⟩ := exists_identifier_of_isShorthand hshort
          obtain rfl := Option.some.inj hkey
          exact .shorthand name span
        · cases h
      | cons next more =>
        exact isMember_continued hp hs hkey (by simp at hdrest; omega) h

/-- A run that has the form of a member is read as one. -/
theorem member_of_isMember {depth : Nat} {run : List Nest} (hp : AreProper run)
    (hd : depth + heights run ≤ maxNesting) {shape : MemberShape}
    (h : IsMember (tokensOf run) shape) : Succeeds (Reading.member depth run) := by
  generalize hts : tokensOf run = ts at h
  cases h with
  | spread span h =>
    obtain ⟨rest, rfl, rfl⟩ := eq_token_cons hp rfl hts
    rw [Reading.member_spread (by simp [isKind, kind?])]
    have hv := (isRest_tokensOf_iff ((areProper_cons _ _).1 hp).2).1 h
    exact ((Reading.value_succeeds_iff (by simpa using hd)).2 hv).map _
  | value hk span h =>
    obtain ⟨first, rest, rfl, hkey, hs, hrest⟩ := hk.eq_cons hp hts
    obtain ⟨hfirst, hp⟩ := (areProper_cons _ _).1 hp
    obtain ⟨more, rfl, rfl⟩ := eq_token_cons hp rfl hrest
    rw [Reading.member_pair hs hkey (by simp [isKind, kind?])]
    have hv := (isRest_tokensOf_iff ((areProper_cons _ _).1 hp).2).1 h
    exact ((Reading.value_succeeds_iff (by simp at hd; omega)).2 hv).map _
  | method hk o c b hpar h =>
    obtain ⟨first, rest, rfl, hkey, hs, hrest⟩ := hk.eq_cons hp hts
    obtain ⟨hfirst, hp⟩ := (areProper_cons _ _).1 hp
    obtain ⟨parameters, more, rfl, rfl, hmore⟩ := eq_group_cons hp hpar hrest
    obtain ⟨-, hp⟩ := (areProper_cons _ _).1 hp
    rw [← hmore] at h
    rw [Reading.member_method hs hkey rfl (by simp [isGroup])]
    have hblock : more.head?.any (·.isGroup .brace) := by
      cases more with
      | nil => cases hmore
      | cons n others =>
        obtain ⟨t, us, htok, -⟩ := tokens_eq_cons n
        rw [tokensOf_cons, htok, List.cons_append, List.cons.injEq] at hmore
        simpa using (isGroup_iff ((areProper_cons _ _).1 hp).1 htok .brace).2 (by rw [hmore.1])
    rw [if_pos hblock]
    have hv := (isRest_tokensOf_iff hp).1 h
    exact ((Reading.dynamic_succeeds_iff _ (by simp at hd; omega)).2 hv).map _
  | shorthand name span =>
    obtain ⟨rest, rfl, hrest⟩ := eq_token_cons hp rfl hts
    obtain rfl := tokensOf_eq_nil hrest
    have hkey : (Nest.token ⟨.identifier name, span⟩).key? = some (some name) := rfl
    rw [Reading.member_single (by simp [isKind, kind?]) hkey, if_pos (by rfl)]
    exact ⟨_, rfl⟩

theorem members_succeeds_iff (depth : Nat) (runs : List (List Nest)) :
    Succeeds (Reading.members depth runs) ↔
      ∀ run ∈ runs, Succeeds (Reading.member depth run) := by
  induction runs with
  | nil => simp [Reading.members_nil, Succeeds]
  | cons run runs ih =>
    rw [Reading.members_cons, List.forall_mem_cons, ← ih]
    cases Reading.member depth run with
    | error failure => simp [Reading.cons, Succeeds]
    | ok first => cases Reading.members depth runs <;> simp [Reading.cons, Succeeds, Except.map]

/-- Each member is that of its run. -/
theorem forall₂_member {depth : Nat} {runs : List (List Nest)} {members : List Member}
    (h : Reading.members depth runs = .ok members) :
    List.Forall₂ (fun run m => Reading.member depth run = .ok m) runs members := by
  induction runs generalizing members with
  | nil =>
    rw [Reading.members_nil] at h
    obtain rfl := Except.ok.inj h
    exact .nil
  | cons run runs ih =>
    rw [Reading.members_cons] at h
    cases hm : Reading.member depth run with
    | error failure =>
      rw [hm] at h
      cases h
    | ok first =>
      cases hms : Reading.members depth runs with
      | error failure =>
        rw [hm, hms] at h
        cases h
      | ok others =>
        rw [hm, hms] at h
        obtain rfl := Except.ok.inj h
        exact .cons hm (ih hms)

section
variable {depth : Nat} {o c : Span} {body : List Nest}

theorem memberRun_within (hp : AreProper body) (hd : depth + heights body ≤ maxNesting) :
    ∀ run ∈ dropEmptyLast (slices body), AreProper run ∧ depth + heights run ≤ maxNesting := by
  intro run hr
  have hmem := mem_of_mem_dropEmptyLast hr
  have hle := heights_le_of_subset (mem_of_mem_slices hmem)
  exact ⟨(isItem_of_mem_slices hp run hmem).proper, by omega⟩

/-- A group in braces is an object literal exactly if its runs have the form of members. -/
theorem object_succeeds_iff (hp : AreProper body) (hd : depth + heights body ≤ maxNesting) :
    Succeeds (Reading.object depth o c body) ↔
      ∀ slice ∈ memberSlices (tokensOf body), ∃ shape, IsMember slice shape := by
  have hruns := memberRun_within hp hd
  have hobject : Succeeds (Reading.object depth o c body) ↔
      Succeeds (Reading.members depth (dropEmptyLast (slices body))) := by
    rw [Reading.object_of_le (by omega)]
    exact ⟨fun ⟨a, ha⟩ => (Succeeds.of_map ha).1, Succeeds.map _⟩
  rw [hobject, members_succeeds_iff, memberSlices_tokensOf body hp, List.forall_mem_map]
  refine forall₂_congr fun run hr => ?_
  constructor
  · rintro ⟨m, hm⟩
    exact ⟨m.shape, isMember_of_member (hruns run hr).1 (hruns run hr).2 hm⟩
  · rintro ⟨shape, h⟩
    exact member_of_isMember (hruns run hr).1 (hruns run hr).2 h

/-- The members of an object literal are those of its runs, in their order. -/
theorem object_members (hp : AreProper body) (hd : depth + heights body ≤ maxNesting) {expr : Expr}
    (h : Reading.object depth o c body = .ok expr) :
    ∃ members, expr = .object ⟨o.start, c.stop⟩ members ∧
      List.Forall₂ (fun slice m => IsMember slice (Member.shape m)) (memberSlices (tokensOf body))
        members := by
  rw [Reading.object_of_le (by omega)] at h
  cases hm : Reading.members depth (dropEmptyLast (slices body)) with
  | error failure =>
    rw [hm] at h
    cases h
  | ok members =>
    rw [hm] at h
    obtain rfl := Except.ok.inj h
    refine ⟨members, rfl, ?_⟩
    rw [memberSlices_tokensOf body hp, List.forall₂_map_left_iff]
    have hboth := (List.forall₂_and_left _ _).2 ⟨memberRun_within hp hd, forall₂_member hm⟩
    exact hboth.imp fun run m h => isMember_of_member h.1.1 h.1.2 h.2

end

/-- Reading an object literal at a brace succeeds exactly if every run between the commas of its
body has the form of a member. It then ends behind the partner of the brace, with a member of that
form for each run. -/
structure ReadsAsMembers (depth : Nat) (o c : Span) (body after : List Token) : Prop where
  succeeds_iff :
    (∃ result, Parser.object depth (⟨.opener .brace, o⟩ :: (body ++ ⟨.closer .brace, c⟩ :: after)) =
      .ok result) ↔ ∀ slice ∈ memberSlices body, ∃ shape, IsMember slice shape
  members : ∀ expr rest,
    Parser.object depth (⟨.opener .brace, o⟩ :: (body ++ ⟨.closer .brace, c⟩ :: after)) =
      .ok (expr, rest) →
    rest.1 = after ∧ ∃ members, expr = .object ⟨o.start, c.stop⟩ members ∧
      List.Forall₂ (fun slice m => IsMember slice (Member.shape m)) (memberSlices body) members

theorem readsAsMembers {depth : Nat} {o c : Span} {body : List Nest} (after : List Token)
    (hp : AreProper body) (hd : depth + heights body ≤ maxNesting) :
    ReadsAsMembers depth o c (tokensOf body) after := by
  have hreads := reads_object depth o c body after hp
  have hsucceeds := object_succeeds_iff (o := o) (c := c) hp hd
  cases hr : Reading.object depth o c body with
  | error failure =>
    rw [hr] at hreads hsucceeds
    have he := Reads.error_iff.1 hreads
    refine ⟨?_, fun expr rest h => ?_⟩
    · rw [← hsucceeds, he]
      simp [Succeeds]
    · rw [he] at h
      cases h
  | ok expr =>
    rw [hr] at hreads hsucceeds
    obtain ⟨hlt, he⟩ := Reads.ok_iff.1 hreads
    refine ⟨?_, fun expr' rest h => ?_⟩
    · rw [← hsucceeds, he]
      simp [Succeeds]
    · rw [he] at h
      obtain ⟨rfl, rfl⟩ := Prod.mk.inj (Except.ok.inj h)
      exact ⟨rfl, object_members hp hd hr⟩

/-- In a script no more than `maxNesting` deep every opening brace has a partner, and what stands
between them is read as members or not at all. -/
theorem object_of_members {source : String} {ts before tail : List Token} {o : Span} {depth : Nat}
    (hs : Script.tokens source = .ok ts) (hn : NestsWithin maxNesting ts)
    (hts : ts = before ++ ⟨.opener .brace, o⟩ :: tail) (hd : depth ≤ openCount before) :
    ∃ body c after, tail = body ++ ⟨.closer .brace, c⟩ :: after ∧ Balanced body ∧
      ReadsAsMembers depth o c body after := by
  obtain ⟨ns, hns, rfl⟩ := exists_of_tokens hs
  obtain ⟨body, c, after, rfl, hb⟩ := (balanced_tokensOf ns hns).exists_partner hts
  obtain ⟨nests, hp, rfl⟩ := exists_of_balanced hb
  have hheights : depth + heights nests ≤ maxNesting := by
    have hall : (before ++ [⟨.opener .brace, o⟩]) ++ tokensOf nests ++
        ⟨.closer .brace, c⟩ :: after = tokensOf ns := by simp [hts]
    rw [← hall] at hn
    have := heights_le_of_nestsWithin hp hn
    simp [TokenKind.turn] at this
    omega
  exact ⟨tokensOf nests, c, after, rfl, hb, readsAsMembers after hp hheights⟩

theorem object_of_members_block : ∃ ts o tail,
    Script.tokens "{a: {;}, ...b,}" = .ok ts ∧ NestsWithin maxNesting ts ∧
      ts = ⟨.opener .brace, o⟩ :: tail ∧
      ∃ body c after, tail = body ++ ⟨.closer .brace, c⟩ :: after ∧ Balanced body ∧
        ReadsAsMembers 0 o c body after := by
  have hs : Script.tokens "{a: {;}, ...b,}" = .ok
      [⟨.opener .brace, ⟨0, 1⟩⟩, ⟨.identifier "a", ⟨1, 2⟩⟩, ⟨.colon, ⟨2, 3⟩⟩,
        ⟨.opener .brace, ⟨4, 5⟩⟩, ⟨.semicolon, ⟨5, 6⟩⟩, ⟨.closer .brace, ⟨6, 7⟩⟩,
        ⟨.comma, ⟨7, 8⟩⟩, ⟨.spread, ⟨9, 12⟩⟩, ⟨.identifier "b", ⟨12, 13⟩⟩,
        ⟨.comma, ⟨13, 14⟩⟩, ⟨.closer .brace, ⟨14, 15⟩⟩] := by
    decide +kernel
  refine ⟨_, _, _, hs, ?_, rfl, object_of_members hs ?_ (List.nil_append _).symm (by decide)⟩
  all_goals decide

end DesignTokens.Script
