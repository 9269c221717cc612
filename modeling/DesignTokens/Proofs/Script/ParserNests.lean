import DesignTokens.Proofs.Script.ParserSteps

/-! # The parser on balanced tokens

Reading from left to right gives what is read from the nests of the same tokens, and ends where they
end. Tokens are read anew after every failure, but no attempt leaves the nest it began with. -/
namespace DesignTokens.Script
open Text (Span)
open Nest

-- The induction is that of the definitions over nests: a group weighs more than its body.
mutual

theorem reads_object (depth : Nat) (o c : Span) (body : List Nest) (after : List Token)
    (hp : AreProper body) :
    Reads (Parser.object depth
      (⟨.opener .brace, o⟩ :: (tokensOf body ++ ⟨.closer .brace, c⟩ :: after)))
      (Reading.object depth o c body) after := by
  rcases Nat.lt_or_ge maxNesting depth with hd | hd
  · rw [Parser.object, if_pos hd, Reading.object_of_lt hd, Reads.error_iff]
  · have hm := reads_members depth (slices body) c after (cut_slices body _)
      (isItem_of_mem_slices hp)
    rw [Parser.object, if_neg (Nat.not_lt.2 hd), if_pos rfl, Reading.object_of_le hd]
    cases hr : Reading.members depth (dropEmptyLast (slices body)) with
    | error failure =>
      rw [hr] at hm
      rw [Reads.error_iff.1 hm]
      exact Reads.error_iff.2 rfl
    | ok inside =>
      rw [hr] at hm
      obtain ⟨hlt, he⟩ := Reads.ok_iff.1 hm
      rw [he]
      exact Reads.ok_iff.2 ⟨_, rfl⟩
termination_by (weights body + 1, 5)
decreasing_by
  rw [slicesWeight_slices]
  decreasing_tactic

theorem reads_members (depth : Nat) (runs : List (List Nest)) {ts : List Token} (c : Span)
    (after : List Token) (h : Cut (⟨.closer .brace, c⟩ :: after) runs ts)
    (hi : ∀ run ∈ runs, IsItem run) :
    Reads (Parser.members depth ts)
      ((Reading.members depth (dropEmptyLast runs)).map fun inside => (inside, c.stop)) after := by
  match runs, h with
  | [[]], .last _ =>
    rw [dropEmptyLast]
    exact reads_members_end depth c after
  | [n :: ns], .last _ =>
    have hrun := hi (n :: ns) List.mem_cons_self
    have hf := reads_member depth (n :: ns) ⟨.closer .brace, c⟩ after (.inr rfl) hrun
    obtain ⟨t, us, hts, ht⟩ := exists_head hrun.proper ⟨.closer .brace, c⟩ after
      (.inl (by simp))
    rw [dropEmptyLast, dropEmptyLast, Reading.members_cons, hts]
    · rw [hts] at hf
      exact reads_members_step ht hf (Parser.nextItem?_closer _ _ _)
        (reads_members_end depth c after)
    · simp
  | run :: next :: others, .cons _ span us h =>
    have hrun := hi run List.mem_cons_self
    have hf := reads_member depth run ⟨.comma, span⟩ us (.inl rfl) hrun
    obtain ⟨t, vs, hts, ht⟩ := exists_head hrun.proper ⟨.comma, span⟩ us (.inr (by simp))
    have ho := reads_members depth (next :: others) c after h
      fun r hr => hi r (List.mem_cons_of_mem _ hr)
    have hdrop : dropEmptyLast (run :: next :: others) = run :: dropEmptyLast (next :: others) := by
      rw [dropEmptyLast]
      simp
    rw [hdrop, Reading.members_cons, hts]
    rw [hts] at hf
    exact reads_members_step ht hf (Parser.nextItem?_comma _ _ _) ho
termination_by (slicesWeight runs, 4)
decreasing_by
  all_goals
    simp only [slicesWeight]
    decreasing_with omega

theorem reads_member (depth : Nat) (run : List Nest) (e : Token) (tail : List Token)
    (he : e.kind = .comma ∨ e.kind = .closer .brace) (hi : IsItem run) :
    Reads (Parser.member depth (tokensOf run ++ e :: tail)) (Reading.member depth run)
      (e :: tail) := by
  have ht : Parser.atValueEnd (e :: tail) := by
    rcases he with he | he <;> simp [Parser.atValueEnd, Parser.endsValue, he]
  match run with
  | [] =>
    rw [tokensOf_nil, List.nil_append, Parser.member, Reading.member]
    rcases he with he | he <;> simp [he, Parser.key?, Reads.error_iff]
  | first :: rest =>
    by_cases hs : first.isKind .spread
    · obtain ⟨t, ts, htok, -⟩ := tokens_eq_cons first
      obtain ⟨rfl, -⟩ := eq_token_of_isKind htok hs
      rw [Reading.member_spread hs, tokensOf_cons, tokens_token, List.singleton_append,
        List.cons_append, Parser.member, if_pos ((isKind_iff htok rfl).1 hs)]
      exact ((reads_value depth rest (e :: tail) ht hi.tail).mapValue _).widen _
    · have hs : first.isKind .spread = false := by simpa using hs
      match rest with
      | [] =>
        rw [tokensOf_cons, tokensOf_nil, List.append_nil]
        exact reads_single he hi.head.1 hs
      | next :: more =>
        exact reads_continued he hi hs (reads_value depth more (e :: tail) ht hi.tail.tail)
          (reads_dynamic depth next.span.start more (e :: tail) ht hi.tail.tail)
termination_by (weights run + 1, 3)
decreasing_by
  all_goals
    have := weight_pos first
    simp only [weights_cons]
    decreasing_with omega

theorem reads_array (depth : Nat) (o c : Span) (body : List Nest) (after : List Token)
    (hp : AreProper body) :
    Reads (Parser.array depth
      (⟨.opener .bracket, o⟩ :: (tokensOf body ++ ⟨.closer .bracket, c⟩ :: after)))
      (Reading.array depth o c body) after := by
  rcases Nat.lt_or_ge maxNesting depth with hd | hd
  · rw [Parser.array, if_pos hd, Reading.array_of_lt hd, Reads.error_iff]
  · have hm := reads_items depth (slices body) c after (cut_slices body _)
      (isItem_of_mem_slices hp)
    rw [Parser.array, if_neg (Nat.not_lt.2 hd), if_pos rfl, Reading.array_of_le hd]
    cases hr : Reading.elements depth ((slices body).filter fun run => !run.isEmpty) with
    | error failure =>
      rw [hr] at hm
      rw [Reads.error_iff.1 hm]
      exact Reads.error_iff.2 rfl
    | ok inside =>
      rw [hr] at hm
      obtain ⟨hlt, he⟩ := Reads.ok_iff.1 hm
      rw [he]
      exact Reads.ok_iff.2 ⟨_, rfl⟩
termination_by (weights body + 1, 5)
decreasing_by
  rw [slicesWeight_slices]
  decreasing_tactic

theorem reads_items (depth : Nat) (runs : List (List Nest)) {ts : List Token} (c : Span)
    (after : List Token) (h : Cut (⟨.closer .bracket, c⟩ :: after) runs ts)
    (hi : ∀ run ∈ runs, IsItem run) :
    Reads (Parser.items depth ts)
      ((Reading.elements depth (runs.filter fun run => !run.isEmpty)).map
        fun inside => (inside, c.stop)) after := by
  match runs, h with
  | [[]], .last _ =>
    rw [List.filter_cons_of_neg (by simp), List.filter_nil]
    exact reads_items_end depth c after
  | [n :: ns], .last _ =>
    have hrun := hi (n :: ns) List.mem_cons_self
    have hf := reads_item depth n ns (⟨.closer .bracket, c⟩ :: after) rfl hrun
    obtain ⟨t, us, hts, ht, hc⟩ := exists_head_item hrun (⟨.closer .bracket, c⟩ :: after) .bracket
    rw [List.filter_cons_of_pos (by simp), List.filter_nil, Reading.elements_cons, hts]
    rw [hts] at hf
    exact reads_items_step ht hc hf (Parser.nextItem?_closer _ _ _)
      (reads_items_end depth c after)
  | [] :: next :: others, .cons _ span us h =>
    have ho := reads_items depth (next :: others) c after h
      fun r hr => hi r (List.mem_cons_of_mem _ hr)
    rw [List.filter_cons_of_neg (by simp), tokensOf_nil, List.nil_append, Parser.items]
    exact ho.widen _
  | (n :: ns) :: next :: others, .cons _ span us h =>
    have hrun := hi (n :: ns) List.mem_cons_self
    have hf := reads_item depth n ns (⟨.comma, span⟩ :: us) rfl hrun
    have ho := reads_items depth (next :: others) c after h
      fun r hr => hi r (List.mem_cons_of_mem _ hr)
    obtain ⟨t, vs, hts, ht, hc⟩ := exists_head_item hrun (⟨.comma, span⟩ :: us) .bracket
    rw [List.filter_cons_of_pos (by simp), Reading.elements_cons, hts]
    rw [hts] at hf
    exact reads_items_step ht hc hf (Parser.nextItem?_comma _ _ _) ho
termination_by (slicesWeight runs, 4)
decreasing_by
  all_goals
    simp only [slicesWeight]
    decreasing_with omega

theorem reads_item (depth : Nat) (first : Nest) (rest : List Nest) (tail : List Token)
    (ht : Parser.atValueEnd tail) (hi : IsItem (first :: rest)) :
    Reads (Parser.item depth (tokensOf (first :: rest) ++ tail))
      (Reading.element depth (first :: rest)) tail := by
  have hv := reads_value depth (first :: rest) tail ht hi
  obtain ⟨t, ts, htok, hstart⟩ := tokens_eq_cons first
  have hk : first.isKind .spread ↔ t.kind = .spread := isKind_iff htok rfl
  rw [Reading.element]
  by_cases hs : first.isKind .spread
  · have hrest := reads_value depth rest tail ht hi.tail
    rw [if_pos hs, ← hstart]
    obtain ⟨rfl, -⟩ := eq_token_of_isKind htok hs
    rw [tokensOf_cons, tokens_token, List.singleton_append, List.cons_append, Parser.item,
      if_pos (hk.1 hs)]
    exact (hrest.mapValue _).widen _
  · rw [if_neg hs]
    rw [tokensOf_cons, htok, List.append_assoc, List.cons_append] at hv ⊢
    rw [Parser.item, if_neg fun h => hs (hk.2 h)]
    exact hv
termination_by (weights (first :: rest) + 1, 3)
decreasing_by
  all_goals
    have := weight_pos first
    simp only [weights_cons]
    decreasing_with omega

theorem reads_value (depth : Nat) (run : List Nest) (tail : List Token)
    (ht : Parser.atValueEnd tail) (hi : IsItem run) :
    Reads (Parser.value depth (tokensOf run ++ tail)) (Reading.value depth run) tail := by
  match run with
  | [] =>
    rw [Reading.value, Reads.error_iff]
    exact Parser.value_end ht
  | first :: rest =>
    exact reads_value_of_literal ht hi
      (reads_literal depth first (tokensOf rest ++ tail) hi.head.1)
      (reads_dynamic depth first.span.start (first :: rest) tail ht hi)
termination_by (weights run + 1, 2)
decreasing_by
  all_goals
    have := weight_pos first
    simp only [weights_cons]
    decreasing_with omega

theorem reads_literal (depth : Nat) (n : Nest) (after : List Token) (hp : n.IsProper) :
    Reads (Parser.literal depth (n.tokens ++ after)) (Reading.literal depth n) after := by
  match n with
  | .token t =>
    obtain ⟨kind, span⟩ := t
    rw [tokens_token, List.singleton_append, Parser.literal, Reading.literal]
    · cases kind with
      | opener d => simp [TokenKind.isDelimiter] at hp
      | string value => exact Reads.ok_iff.2 ⟨_, rfl⟩
      | number value => exact Reads.ok_iff.2 ⟨_, rfl⟩
      | template value => cases value <;> simp [Parser.constant?, Nest.constant?, Reads, Except.map]
      | _ => exact Reads.error_iff.2 rfl
    all_goals simp
  | .group .brace o c body =>
    have hb := reads_object (depth + 1) o c body after (by simpa using hp)
    rw [tokens_group, List.cons_append, List.append_assoc, List.singleton_append,
      Parser.literal, Reading.literal]
    exact hb
  | .group .bracket o c body =>
    have hb := reads_array (depth + 1) o c body after (by simpa using hp)
    rw [tokens_group, List.cons_append, List.append_assoc, List.singleton_append,
      Parser.literal, Reading.literal]
    exact hb
  | .group .parenthesis o c body =>
    rw [tokens_group, List.cons_append, List.append_assoc, List.singleton_append,
      Parser.literal, Reading.literal]
    · exact Reads.error_iff.2 rfl
    all_goals simp
termination_by (weight n, 6)
decreasing_by
  all_goals
    simp only [weight]
    decreasing_with omega

theorem reads_dynamic (depth start : Nat) (run : List Nest) (tail : List Token)
    (ht : Parser.atValueEnd tail) (hi : IsItem run) :
    Reads (Parser.dynamic depth start (tokensOf run ++ tail)) (Reading.dynamic depth start run)
      tail := by
  refine reads_dynamic_of_found ht rfl fun after => ?_
  refine runTo_tokensOf depth 0 start _ after ?_ fun _ n hn => ?_
  · exact (areProper_iff _).2 fun n hn =>
      (areProper_iff run).1 hi.proper n (List.takeWhile_subset _ hn)
  · exact ⟨hi.noComma n (List.takeWhile_subset _ hn), by simpa using List.mem_takeWhile_imp hn⟩
termination_by (weights run + 1, 1)
decreasing_by
  have := Reading.weights_takeWhile_le (fun n => !n.isKind .semicolon) run
  rw [Prod.lex_def]
  omega

theorem runTo_tokensOf (depth level stop : Nat) (ns : List Nest) (after : List Token)
    (hp : AreProper ns)
    (hl : level = 0 → ∀ n ∈ ns, n.isKind .comma = false ∧ n.isKind .semicolon = false) :
    Parser.runTo depth level stop (tokensOf ns ++ after) =
      afterFound (Reading.found (depth + 1) ns)
        (Parser.runTo depth level (Parser.lastStop stop ns) after) := by
  match ns with
  | [] =>
    rw [Reading.found, afterFound_nil]
    rfl
  | .token t :: rest =>
    obtain ⟨ht, hrest⟩ := (areProper_cons _ rest).1 hp
    have hr := runTo_tokensOf depth level t.span.stop rest after hrest
      fun h0 n hn => hl h0 n (List.mem_cons_of_mem _ hn)
    have hkinds : level = 0 → t.kind ≠ .comma ∧ t.kind ≠ .semicolon := by
      intro h0
      have := hl h0 _ List.mem_cons_self
      simpa [isKind, kind?] using this
    rw [Reading.found_cons, afterFound_both, Reading.found_token, afterFound_nil, tokensOf_cons,
      tokens_token, List.singleton_append, List.cons_append,
      Parser.runTo_token _ (by simpa using ht) hkinds, hr]
    rfl
  | .group d o c body :: rest =>
    obtain ⟨hbody, hrest⟩ := (areProper_cons _ rest).1 hp
    have hbody : AreProper body := by simpa using hbody
    have hr := runTo_tokensOf depth level c.stop rest after hrest
      fun h0 n hn => hl h0 n (List.mem_cons_of_mem _ hn)
    -- Inside the group the level is positive, and it is back at the closing delimiter.
    have hinside : Parser.runTo depth (level + 1) o.stop
        (tokensOf body ++ ⟨.closer d, c⟩ :: (tokensOf rest ++ after)) =
          afterFound (Reading.found (depth + 1) body)
            (Parser.runTo depth level c.stop (tokensOf rest ++ after)) := by
      rw [runTo_tokensOf depth (level + 1) o.stop body _ hbody (by simp), Parser.runTo_closer]
    have hall : tokensOf (.group d o c body :: rest) ++ after =
        ⟨.opener d, o⟩ :: (tokensOf body ++ ⟨.closer d, c⟩ :: (tokensOf rest ++ after)) := by simp
    rw [Reading.found_cons, afterFound_both, Reading.found_group, hall]
    have hlast : Parser.lastStop stop (.group d o c body :: rest) =
        Parser.lastStop c.stop rest := rfl
    rw [hlast, ← hr]
    by_cases hd : d = .brace
    · subst hd
      have ho := reads_object (depth + 1) o c body (tokensOf rest ++ after) hbody
      rw [if_pos rfl]
      cases hobj : Reading.object (depth + 1) o c body with
      | error failure =>
        rw [hobj, Reads.error_iff] at ho
        cases failure with
        | mismatch => rw [Parser.runTo_brace_mismatch ho, hinside]
        | tooDeep start => exact Parser.runTo_brace_tooDeep ho
      | ok expr =>
        rw [hobj] at ho
        obtain ⟨hlt, he⟩ := Reads.ok_iff.1 ho
        rw [Parser.runTo_brace_ok he, Reading.span_object hobj]
        rfl
    · rw [if_neg hd, Parser.runTo_opener _ hd, hinside]
termination_by (weights ns + 1, 0)
decreasing_by
  all_goals
    simp only [weights_cons, weight]
    decreasing_with omega

end

namespace Parser

theorem roots_cons {t : Token} (ts : List Token) (h : t.kind ≠ .opener .brace) :
    roots (t :: ts) = roots ts := by
  rw [roots, if_neg h]

private theorem roots_brace {span : Span} {ts after : List Token} {expr : Expr}
    {hlt : after.length < (⟨.opener .brace, span⟩ :: ts : List Token).length}
    (h : object 0 (⟨.opener .brace, span⟩ :: ts) = .ok (expr, ⟨after, hlt⟩)) :
    roots (⟨.opener .brace, span⟩ :: ts) = Reading.both (.ok [expr]) (roots after) := by
  rw [roots, if_pos rfl, h]
  dsimp only
  cases roots after <;> rfl

end Parser

/-- The object literals of balanced tokens are those found in their nests. -/
theorem roots_tokensOf (ns : List Nest) (hp : AreProper ns) (after : List Token) :
    Parser.roots (tokensOf ns ++ after) =
      Reading.both (Reading.found 0 ns) (Parser.roots after) := by
  match ns with
  | [] => rw [Reading.found, Reading.both_nil, tokensOf_nil, List.nil_append]
  | .token t :: rest =>
    obtain ⟨ht, hrest⟩ := (areProper_cons _ rest).1 hp
    have hk : t.kind ≠ .opener .brace := by
      intro hk
      simp [hk, TokenKind.isDelimiter] at ht
    rw [Reading.found_cons, Reading.found_token, Reading.both_nil, tokensOf_cons, tokens_token,
      List.singleton_append, List.cons_append, Parser.roots_cons _ hk,
      roots_tokensOf rest hrest after]
  | .group d o c body :: rest =>
    obtain ⟨hbody, hrest⟩ := (areProper_cons _ rest).1 hp
    have hbody : AreProper body := by simpa using hbody
    have hr := roots_tokensOf rest hrest after
    have hinside : Parser.roots (tokensOf body ++ ⟨.closer d, c⟩ :: (tokensOf rest ++ after)) =
        Reading.both (Reading.found 0 body) (Parser.roots (tokensOf rest ++ after)) := by
      rw [roots_tokensOf body hbody, Parser.roots_cons _ (by simp)]
    have hall : tokensOf (.group d o c body :: rest) ++ after =
        ⟨.opener d, o⟩ :: (tokensOf body ++ ⟨.closer d, c⟩ :: (tokensOf rest ++ after)) := by simp
    rw [Reading.found_cons, Reading.both_assoc, Reading.found_group, hall, ← hr]
    by_cases hd : d = .brace
    · subst hd
      have ho := reads_object 0 o c body (tokensOf rest ++ after) hbody
      rw [if_pos rfl]
      cases hobj : Reading.object 0 o c body with
      | error failure =>
        rw [hobj, Reads.error_iff] at ho
        cases failure with
        | mismatch =>
          rw [← hinside, Parser.roots, if_pos rfl, ho]
        | tooDeep start =>
          rw [Parser.roots, if_pos rfl, ho]
          rfl
      | ok expr =>
        rw [hobj] at ho
        obtain ⟨hlt, he⟩ := Reads.ok_iff.1 ho
        exact Parser.roots_brace he
    · rw [if_neg hd, Parser.roots_cons _ (by simpa using hd), hinside]
termination_by weights ns
decreasing_by
  all_goals
    simp only [weights_cons, weight]
    omega

theorem roots_eq_found {ns : List Nest} (hp : AreProper ns) :
    Parser.roots (tokensOf ns) = Reading.found 0 ns := by
  have h := roots_tokensOf ns hp []
  rwa [Parser.roots, Reading.both_nil_right, List.append_nil] at h

end DesignTokens.Script
