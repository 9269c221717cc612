import DesignTokens.Proofs.Script.Accepted
import DesignTokens.Proofs.Script.Depth
import DesignTokens.Proofs.Script.ParserNests
import Mathlib.Data.List.Forall2
import Mathlib.Data.List.Pairwise

/-! # No object literal is missed or found twice

What is found in a script, and in every run of unknown value, are the outermost pairs of braces at
which an object literal is read. It makes no difference where the attempt to read one began. -/
namespace DesignTokens.Script
open Text (Span)
open Nest

/-- The object literal `expr` is read at the brace `i`, and `j` is the partner of the brace. -/
def LiteralAt (ts : List Token) (i j : Nat) (expr : Expr) : Prop :=
  ∃ o body c after, ts.drop i = ⟨.opener .brace, o⟩ :: (body ++ ⟨.closer .brace, c⟩ :: after) ∧
    Balanced body ∧ j = i + body.length + 1 ∧
    (Parser.object 0 (ts.drop i)).map Prod.fst = .ok expr

/-- A literal among the first `n` tokens that is in no other one. -/
def IsOutermost (ts : List Token) (n : Nat) (p : Nat × Nat) : Prop :=
  (∃ expr, LiteralAt ts p.1 p.2 expr) ∧ p.2 < n ∧
    ∀ q expr, LiteralAt ts q.1 q.2 expr → q.2 < n → q.1 ≤ p.1 → p.2 ≤ q.2 → q = p

/-- The places of some literals, in the order of the text, such that every literal among the first
`n` tokens is at one of them or inside of it. -/
structure Selects (ts : List Token) (n : Nat) (places : List (Nat × Nat)) (found : List Expr) :
    Prop where
  ordered : places.Pairwise fun p q => p.2 < q.1
  within : ∀ p ∈ places, p.2 < n
  covered : ∀ i j expr, LiteralAt ts i j expr → j < n → ∃ p ∈ places, p.1 ≤ i ∧ j ≤ p.2
  literals : List.Forall₂ (fun p expr => LiteralAt ts p.1 p.2 expr) places found

/-- The outermost literals among the first `n` tokens, from left to right. -/
def OutermostLiterals (ts : List Token) (n : Nat) (found : List Expr) : Prop :=
  ∃ places, Selects ts n places found ∧ ∀ p, p ∈ places ↔ IsOutermost ts n p

namespace LiteralAt
variable {ts xs ys : List Token} {i j : Nat} {expr : Expr}

theorem lt (h : LiteralAt ts i j expr) : i < j := by
  obtain ⟨o, body, c, after, -, -, rfl, -⟩ := h
  omega

/-- Nothing before a literal matters to it. -/
theorem shift_iff (xs : List Token) {k m : Nat} :
    LiteralAt (xs ++ ys) (xs.length + k) (xs.length + m) expr ↔ LiteralAt ys k m expr := by
  have hdrop : (xs ++ ys).drop (xs.length + k) = ys.drop k := by simp
  unfold LiteralAt
  rw [hdrop]
  constructor
  · rintro ⟨o, body, c, after, hts, hb, hj, h⟩
    exact ⟨o, body, c, after, hts, hb, by omega, h⟩
  · rintro ⟨o, body, c, after, hts, hb, hj, h⟩
    exact ⟨o, body, c, after, hts, hb, by omega, h⟩

/-- A literal that begins in balanced tokens ends in them. -/
theorem lt_length_of_balanced (hx : Balanced xs) (h : LiteralAt (xs ++ ys) i j expr)
    (hi : i < xs.length) : j < xs.length := by
  obtain ⟨o, body, c, after, hts, hb, rfl, -⟩ := h
  rw [List.drop_append_of_le_length (Nat.le_of_lt hi)] at hts
  cases hd : xs.drop i with
  | nil =>
    have := congrArg List.length hd
    simp at this
    omega
  | cons t tail =>
    rw [hd] at hts
    obtain ⟨rfl, hrest⟩ := List.cons_eq_cons.1 hts
    have hxs : xs = xs.take i ++ ⟨.opener .brace, o⟩ :: tail := by
      rw [← hd, List.take_append_drop]
    obtain ⟨inside, c', after', rfl, hin⟩ := hx.exists_partner hxs
    have heq : inside ++ ⟨.closer .brace, c'⟩ :: (after' ++ ys) =
        body ++ ⟨.closer .brace, c⟩ :: after := by simpa using hrest
    obtain ⟨rfl, -⟩ := Balanced.partner_unique rfl rfl hin hb heq
    have hlength := congrArg List.length hd
    simp at hlength
    omega

/-- A literal reaches from its brace to the partner. -/
theorem span_eq (h : LiteralAt ts i j expr) : ∃ o c, ts[i]? = some ⟨.opener .brace, o⟩ ∧
    ts[j]? = some ⟨.closer .brace, c⟩ ∧ expr.span = ⟨o.start, c.stop⟩ := by
  obtain ⟨o, body, c, after, hts, hb, rfl, h⟩ := h
  have hat (k : Nat) : ts[i + k]? = (ts.drop i)[k]? := by simp
  refine ⟨o, c, ?_, ?_, ?_⟩
  · rw [← Nat.add_zero i, hat, hts]
    rfl
  · rw [Nat.add_assoc, hat, hts]
    simp
  · obtain ⟨nests, hp, rfl⟩ := exists_of_balanced hb
    have hreads := reads_object 0 o c nests after hp
    rw [hts] at h
    cases hr : Reading.object 0 o c nests with
    | error failure =>
      rw [hr] at hreads
      rw [Reads.error_iff.1 hreads] at h
      cases h
    | ok expr' =>
      rw [hr] at hreads
      obtain ⟨hlt, he⟩ := Reads.ok_iff.1 hreads
      rw [he] at h
      obtain rfl := Except.ok.inj h
      exact Reading.span_object hr

end LiteralAt

/-- A place behind `k` more tokens. -/
def shifted (k : Nat) (p : Nat × Nat) : Nat × Nat := (k + p.1, k + p.2)

namespace Selects
variable {ts us xs : List Token} {n : Nat} {places places' : List (Nat × Nat)}
  {found found' : List Expr}

theorem nil (ts : List Token) : Selects ts 0 [] [] :=
  ⟨.nil, by simp, fun i j expr _ hj => absurd hj (Nat.not_lt_zero j), .nil⟩

/-- There is no room for a literal in one token. -/
theorem token (t : Token) (us : List Token) : Selects (t :: us) 1 [] [] := by
  refine ⟨.nil, by simp, fun i j expr h hj => ?_, .nil⟩
  have := h.lt
  omega

theorem literal {j : Nat} {expr : Expr} (h : LiteralAt ts 0 j expr) :
    Selects ts (j + 1) [(0, j)] [expr] := by
  refine ⟨List.pairwise_singleton _ _, by simp, fun i j' expr' _ hj => ?_, .cons h .nil⟩
  exact ⟨(0, j), List.mem_singleton_self _, Nat.zero_le i, Nat.le_of_lt_succ hj⟩

theorem literals_shifted (xs : List Token)
    (h : List.Forall₂ (fun p expr => LiteralAt us p.1 p.2 expr) places found) :
    List.Forall₂ (fun p expr => LiteralAt (xs ++ us) p.1 p.2 expr)
      (places.map (shifted xs.length)) found := by
  rw [List.forall₂_map_left_iff]
  exact h.imp fun p expr hp => (LiteralAt.shift_iff xs).2 hp

theorem ordered_shifted (k : Nat) (h : places.Pairwise fun p q => p.2 < q.1) :
    (places.map (shifted k)).Pairwise fun p q => p.2 < q.1 := by
  rw [List.pairwise_map]
  refine h.imp fun {p q} hpq => ?_
  simp only [shifted]
  omega

theorem append (hx : Balanced xs) (h : Selects (xs ++ us) xs.length places found)
    (h' : Selects us n places' found') :
    Selects (xs ++ us) (xs.length + n) (places ++ places'.map (shifted xs.length))
      (found ++ found') := by
  refine ⟨?_, ?_, ?_, ?_⟩
  · refine List.pairwise_append.2 ⟨h.ordered, ordered_shifted _ h'.ordered, ?_⟩
    intro p hp q hq
    obtain ⟨r, -, rfl⟩ := List.mem_map.1 hq
    have := h.within p hp
    simp only [shifted]
    omega
  · intro p hp
    rcases List.mem_append.1 hp with hp | hp
    · have := h.within p hp
      omega
    · obtain ⟨r, hr, rfl⟩ := List.mem_map.1 hp
      have := h'.within r hr
      simp only [shifted]
      omega
  · intro i j expr hl hj
    rcases Nat.lt_or_ge i xs.length with hi | hi
    · obtain ⟨p, hp, hle⟩ := h.covered i j expr hl (hl.lt_length_of_balanced hx hi)
      exact ⟨p, List.mem_append_left _ hp, hle⟩
    · obtain ⟨k, rfl⟩ := Nat.exists_eq_add_of_le hi
      obtain ⟨m, rfl⟩ : ∃ m, j = xs.length + m := Nat.exists_eq_add_of_le (by
        have := hl.lt
        omega)
      obtain ⟨p, hp, hle⟩ := h'.covered k m expr ((LiteralAt.shift_iff xs).1 hl) (by omega)
      refine ⟨shifted xs.length p, List.mem_append_right _ (List.mem_map_of_mem hp), ?_⟩
      simp only [shifted]
      omega
  · exact List.rel_append h.literals (literals_shifted xs h'.literals)

/-- In braces that are no literal themselves the literals are those of the body. -/
theorem group {d : Delimiter} {o c : Span} {body : List Token} (hb : Balanced body)
    (h : Selects (body ++ ⟨.closer d, c⟩ :: us) body.length places found)
    (hnot : ∀ j expr, ¬LiteralAt (⟨.opener d, o⟩ :: (body ++ ⟨.closer d, c⟩ :: us)) 0 j expr) :
    Selects (⟨.opener d, o⟩ :: (body ++ ⟨.closer d, c⟩ :: us)) (body.length + 2)
      (places.map (shifted 1)) found := by
  refine ⟨ordered_shifted 1 h.ordered, ?_, ?_, literals_shifted [_] h.literals⟩
  · intro p hp
    obtain ⟨r, hr, rfl⟩ := List.mem_map.1 hp
    have := h.within r hr
    simp only [shifted]
    omega
  · intro i j expr hl hj
    cases i with
    | zero => exact (hnot j expr hl).elim
    | succ k =>
      obtain ⟨m, rfl⟩ : ∃ m, j = 1 + m := Nat.exists_eq_add_of_le (by
        have := hl.lt
        omega)
      have hin : LiteralAt (body ++ ⟨.closer d, c⟩ :: us) k m expr := by
        rw [Nat.add_comm k 1] at hl
        exact (LiteralAt.shift_iff [⟨.opener d, o⟩]).1 hl
      have hk : k < body.length := by
        by_contra hk
        obtain ⟨o', body', c', after', hts, -⟩ := id hin
        have := hin.lt
        obtain rfl : k = body.length := by omega
        simp at hts
      obtain ⟨p, hp, hle⟩ := h.covered k m expr hin (hin.lt_length_of_balanced hb hk)
      refine ⟨shifted 1 p, List.mem_map_of_mem hp, ?_⟩
      simp only [shifted]
      omega

/-- Two selected literals that overlap are one. -/
theorem eq_of_overlap (h : Selects ts n places found) {p q : Nat × Nat} (hp : p ∈ places)
    (hq : q ∈ places) (hpq : q.1 ≤ p.2) (hqp : p.1 ≤ q.2) : p = q := by
  by_contra hne
  let apart (p q : Nat × Nat) : Prop := p.2 < q.1 ∨ q.2 < p.1
  have : Std.Symm apart := ⟨fun p q h => h.symm⟩
  have hapart : places.Pairwise apart := h.ordered.imp fun hlt => Or.inl hlt
  rcases hapart.forall hp hq hne with hlt | hlt <;> omega

theorem exists_literal (h : Selects ts n places found) {p : Nat × Nat} (hp : p ∈ places) :
    ∃ expr, LiteralAt ts p.1 p.2 expr := by
  have hl := h.literals
  clear h
  induction hl with
  | nil => cases hp
  | cons hpq _ ih =>
    rcases List.mem_cons.1 hp with rfl | hp
    · exact ⟨_, hpq⟩
    · exact ih hp

theorem mem_iff (h : Selects ts n places found) (p : Nat × Nat) :
    p ∈ places ↔ IsOutermost ts n p := by
  constructor
  · intro hp
    refine ⟨h.exists_literal hp, h.within p hp, fun q expr hq hn hle hge => ?_⟩
    obtain ⟨r, hr, hle', hge'⟩ := h.covered q.1 q.2 expr hq hn
    obtain ⟨expr', hl⟩ := h.exists_literal hp
    have := hl.lt
    obtain rfl := h.eq_of_overlap hp hr (by omega) (by omega)
    exact Prod.ext (by omega) (by omega)
  · rintro ⟨⟨expr, hl⟩, hn, hout⟩
    obtain ⟨r, hr, hle, hge⟩ := h.covered p.1 p.2 expr hl hn
    obtain ⟨expr', hl'⟩ := h.exists_literal hr
    rw [← hout r expr' hl' (h.within r hr) hle hge]
    exact hr

theorem outermost (h : Selects ts n places found) : OutermostLiterals ts n found :=
  ⟨places, h, h.mem_iff⟩

end Selects

/-- At every depth within the limit the same is read from a group. -/
theorem object_eq_of_le {depth : Nat} {o c : Span} {body : List Nest} (after : List Token)
    (hp : AreProper body) (hd : depth + heights body ≤ maxNesting) :
    Parser.object depth (⟨.opener .brace, o⟩ :: (tokensOf body ++ ⟨.closer .brace, c⟩ :: after)) =
      Parser.object 0
        (⟨.opener .brace, o⟩ :: (tokensOf body ++ ⟨.closer .brace, c⟩ :: after)) := by
  have h0 : 0 + heights body ≤ maxNesting := by omega
  obtain ⟨heq, -⟩ := Reading.object_settled hd h0 o c body (Nat.le_refl _)
  have hreads := reads_object depth o c body after hp
  have hreads0 := reads_object 0 o c body after hp
  rw [heq] at hreads
  cases hr : Reading.object 0 o c body with
  | error failure =>
    rw [hr] at hreads hreads0
    rw [Reads.error_iff.1 hreads, Reads.error_iff.1 hreads0]
  | ok expr =>
    rw [hr] at hreads hreads0
    obtain ⟨hlt, he⟩ := Reads.ok_iff.1 hreads
    obtain ⟨hlt', he'⟩ := Reads.ok_iff.1 hreads0
    rw [he, he']

private theorem literalAt_zero {d : Delimiter} {o c : Span} {body : List Nest} {after : List Token}
    (hp : AreProper body) {j : Nat} {expr : Expr}
    (h : LiteralAt (⟨.opener d, o⟩ :: (tokensOf body ++ ⟨.closer d, c⟩ :: after)) 0 j expr) :
    d = .brace ∧ Reading.object 0 o c body = .ok expr := by
  obtain ⟨o', body', c', after', hts, hb, rfl, h⟩ := h
  rw [List.drop_zero] at hts h
  obtain ⟨hd, hrest⟩ := List.cons_eq_cons.1 hts
  obtain ⟨rfl, rfl⟩ : d = .brace ∧ o = o' := by simpa using hd
  refine ⟨rfl, ?_⟩
  have hreads := reads_object 0 o c body after hp
  cases hr : Reading.object 0 o c body with
  | error failure =>
    rw [hr] at hreads
    rw [Reads.error_iff.1 hreads] at h
    cases h
  | ok expr' =>
    rw [hr] at hreads
    obtain ⟨hlt, he⟩ := Reads.ok_iff.1 hreads
    rw [he] at h
    exact h

private theorem literalAt_of_object {o c : Span} {body : List Nest} (after : List Token)
    (hp : AreProper body) {expr : Expr} (h : Reading.object 0 o c body = .ok expr) :
    LiteralAt (⟨.opener .brace, o⟩ :: (tokensOf body ++ ⟨.closer .brace, c⟩ :: after)) 0
      ((tokensOf body).length + 1) expr := by
  refine ⟨o, tokensOf body, c, after, rfl, balanced_tokensOf body hp, by omega, ?_⟩
  have hreads := reads_object 0 o c body after hp
  rw [h] at hreads
  obtain ⟨hlt, he⟩ := Reads.ok_iff.1 hreads
  rw [List.drop_zero, he]
  rfl

/-- What is found in some nests are the outermost literals of their tokens. -/
def Finds (depth : Nat) (ns : List Nest) (after : List Token) : Prop :=
  ∃ places found, Reading.found depth ns = .ok found ∧
    Selects (tokensOf ns ++ after) (tokensOf ns).length places found

namespace Finds
variable {depth : Nat} {n : Nest} {ns : List Nest} {after : List Token}

theorem nil (depth : Nat) (after : List Token) : Finds depth [] after :=
  ⟨[], [], Reading.found_nil depth, .nil after⟩

theorem token (depth : Nat) (t : Token) (after : List Token) : Finds depth [.token t] after :=
  ⟨[], [], Reading.found_token depth t, .token t after⟩

theorem cons (hn : n.IsProper) (h : Finds depth [n] (tokensOf ns ++ after))
    (h' : Finds depth ns after) : Finds depth (n :: ns) after := by
  obtain ⟨places, found, hf, hs⟩ := h
  obtain ⟨places', found', hf', hs'⟩ := h'
  have hone : tokensOf [n] = n.tokens := by simp
  rw [hone] at hs
  refine ⟨places ++ places'.map (shifted n.tokens.length), found ++ found', ?_, ?_⟩
  · rw [Reading.found_cons, hf, hf']
    rfl
  · rw [tokensOf_cons, List.append_assoc, List.length_append]
    exact hs.append (balanced_tokens n hn) hs'

theorem group {d : Delimiter} {o c : Span} {body : List Nest} (hp : AreProper body)
    (hd : depth + heights body ≤ maxNesting) (h : Finds depth body (⟨.closer d, c⟩ :: after)) :
    Finds depth [.group d o c body] after := by
  obtain ⟨places, found, hf, hs⟩ := h
  have hall : tokensOf [.group d o c body] ++ after =
      ⟨.opener d, o⟩ :: (tokensOf body ++ ⟨.closer d, c⟩ :: after) := by simp
  have hlength : (tokensOf [.group d o c body]).length = (tokensOf body).length + 2 := by simp
  have h0 : 0 + heights body ≤ maxNesting := by omega
  obtain ⟨heq, hne⟩ := Reading.object_settled hd h0 o c body (Nat.le_refl _)
  -- Braces that are no literal, and other groups, hold the literals of their bodies.
  have hinside (hnot : ∀ expr, d = .brace → Reading.object 0 o c body ≠ .ok expr) :
      Selects (tokensOf [.group d o c body] ++ after) (tokensOf [.group d o c body]).length
        (places.map (shifted 1)) found := by
    rw [hall, hlength]
    refine hs.group (balanced_tokensOf body hp) fun j expr hl => ?_
    obtain ⟨hbrace, hl⟩ := literalAt_zero hp hl
    exact hnot expr hbrace hl
  unfold Finds
  rw [Reading.found_group, heq]
  rw [heq] at hne
  by_cases hbrace : d = .brace
  · subst hbrace
    rw [if_pos rfl]
    cases hr : Reading.object 0 o c body with
    | error failure =>
      cases failure with
      | mismatch => exact ⟨_, found, hf, hinside fun expr _ h => by simp [hr] at h⟩
      | tooDeep start => exact (hne start hr).elim
    | ok expr =>
      refine ⟨[(0, (tokensOf body).length + 1)], [expr], rfl, ?_⟩
      rw [hall, hlength]
      exact .literal (literalAt_of_object after hp hr)
  · rw [if_neg hbrace]
    exact ⟨_, found, hf, hinside fun expr h _ => hbrace h⟩

end Finds

theorem finds {depth : Nat} (ns : List Nest) (after : List Token) (hp : AreProper ns)
    (hd : depth + heights ns ≤ maxNesting + 1) : Finds depth ns after := by
  match ns with
  | [] => exact .nil depth after
  | n :: rest =>
    obtain ⟨hn, hrest⟩ := (areProper_cons n rest).1 hp
    have hle : height n ≤ heights (n :: rest) := Nat.le_max_left _ _
    have hle' : heights rest ≤ heights (n :: rest) := Nat.le_max_right _ _
    refine Finds.cons hn ?_ (finds rest after hrest (by omega))
    match n with
    | .token t => exact .token depth t _
    | .group d o c body =>
      have hbody : AreProper body := by simpa using hn
      have hb : depth + heights body ≤ maxNesting := by
        simp only [height_group] at hle
        omega
      exact .group hbody hb (finds body _ hbody (by omega))
termination_by weights ns
decreasing_by
  all_goals
    have := weight_pos n
    simp_all only [weights_cons, weight]
    omega

/-- The literals of a run of unknown value. -/
theorem outermost_of_dynamic {depth start : Nat} {run : List Nest} {tail : List Token}
    (hi : IsItem run) (ht : Parser.atValueEnd tail) (hd : depth + heights run ≤ maxNesting)
    {expr : Expr} {rest : Rest (tokensOf run ++ tail)}
    (h : Parser.dynamic depth start (tokensOf run ++ tail) = .ok (expr, rest)) :
    rest.1 = tail ∧ ∃ stop found, expr = .dynamic ⟨start, stop⟩ found ∧
      OutermostLiterals (tokensOf run ++ tail) (tokensOf run).length found := by
  have hreads := reads_dynamic depth start run tail ht hi
  cases hr : Reading.dynamic depth start run with
  | error failure =>
    rw [hr, Reads.error_iff, h] at hreads
    cases hreads
  | ok expr' =>
    rw [hr] at hreads
    obtain ⟨hlt, he⟩ := Reads.ok_iff.1 hreads
    rw [h] at he
    obtain ⟨rfl, rfl⟩ := Prod.mk.inj (Except.ok.inj he)
    refine ⟨rfl, ?_⟩
    have hwithin : depth + 1 + heights run ≤ maxNesting + 1 := by omega
    obtain ⟨places, found, hf, hs⟩ := finds run tail hi.proper hwithin
    rw [Reading.dynamic] at hr
    split at hr
    · cases hr
    · split at hr
      · cases hr
      · rename_i objects hobjects
        split at hr
        · cases hr
        · rename_i hany
          have hall : run.takeWhile (fun n => !n.isKind .semicolon) = run := by
            simpa using hany
          rw [hall, hf] at hobjects
          obtain rfl := Except.ok.inj hobjects
          obtain rfl := Except.ok.inj hr
          exact ⟨_, found, rfl, hs.outermost⟩

/-- Nests up to a comma outside of groups are one item. -/
theorem exists_item {ns : List Nest} {tail : List Token} (hp : AreProper ns)
    (ht : ∀ t ∈ tail.head?, ∃ d, t.kind = .closer d) :
    ∃ run rest, tokensOf ns ++ tail = tokensOf run ++ rest ∧ IsItem run ∧
      Parser.atValueEnd rest := by
  refine ⟨ns.takeWhile fun n => !n.isKind .comma,
    tokensOf (ns.dropWhile fun n => !n.isKind .comma) ++ tail, ?_, ⟨?_, ?_⟩, ?_⟩
  · rw [← List.append_assoc, ← tokensOf_append, List.takeWhile_append_dropWhile]
  · exact (areProper_iff _).2 fun n hn =>
      (areProper_iff ns).1 hp n (List.takeWhile_subset _ hn)
  · intro n hn
    simpa using List.mem_takeWhile_imp hn
  · rw [Parser.atValueEnd_iff]
    cases hd : ns.dropWhile fun n => !n.isKind .comma with
    | nil =>
      intro t h
      exact .inr (ht t h)
    | cons n rest =>
      have hn : n.isKind .comma := by
        have := List.head?_dropWhile_not (fun n => !n.isKind .comma) ns
        rw [hd] at this
        simpa using this
      obtain ⟨span, rfl⟩ := exists_token_of_isKind hn
      simp

/-- What is found in a script. -/
structure FindsLiterals (source : String) (ts : List Token) : Prop where
  /-- The literals of a document are the outermost ones. -/
  roots : ∃ roots, document source = .ok roots ∧ OutermostLiterals ts ts.length roots
  /-- The literals of a run of unknown value are the outermost ones in it. -/
  dynamic : ∀ before us (depth : Nat) start expr rest, ts = before ++ us → depth ≤ openCount before →
    Parser.dynamic depth start us = .ok (expr, rest) →
    ∃ run stop found, us = run ++ rest.1 ∧ expr = .dynamic ⟨start, stop⟩ found ∧
      OutermostLiterals us run.length found
  /-- An attempt to read a literal does not depend on how deep the attempts around it are. -/
  object : ∀ before us (depth : Nat), ts = before ++ us → depth ≤ openCount before →
    Parser.object depth us = Parser.object 0 us
  /-- A literal reaches from its brace to the partner. -/
  span : ∀ i j expr, LiteralAt ts i j expr → ∃ o c, ts[i]? = some ⟨.opener .brace, o⟩ ∧
    ts[j]? = some ⟨.closer .brace, c⟩ ∧ expr.span = ⟨o.start, c.stop⟩

/-- In tokens that begin with no brace no object literal is read. -/
theorem object_mismatch {depth : Nat} {ts : List Token} (hd : depth ≤ maxNesting)
    (h : ∀ t ∈ ts.head?, t.kind ≠ .opener .brace) : Parser.object depth ts = .error .mismatch := by
  cases ts with
  | nil => rw [Parser.object]
  | cons t ts => rw [Parser.object, if_neg (Nat.not_lt.2 hd), if_neg (h t rfl)]

section
variable {ns : List Nest} {before us : List Token} {depth : Nat}

private theorem depth_le (hn : NestsWithin maxNesting (tokensOf ns))
    (hts : tokensOf ns = before ++ us) (hd : depth ≤ openCount before) : depth ≤ maxNesting := by
  have := hn before ⟨us, hts.symm⟩
  omega

/-- At every place of a script the same object literal is read at every depth. -/
theorem object_eq (hp : AreProper ns) (hn : NestsWithin maxNesting (tokensOf ns))
    (hts : tokensOf ns = before ++ us) (hd : depth ≤ openCount before) :
    Parser.object depth us = Parser.object 0 us := by
  have hle := depth_le hn hts hd
  by_cases hbrace : ∃ o tail, us = ⟨.opener .brace, o⟩ :: tail
  · obtain ⟨o, tail, rfl⟩ := hbrace
    obtain ⟨body, c, after, rfl, hb⟩ := (balanced_tokensOf ns hp).exists_partner hts
    obtain ⟨nests, hnests, rfl⟩ := exists_of_balanced hb
    have hall : tokensOf ns =
        (before ++ [⟨.opener .brace, o⟩]) ++ tokensOf nests ++ ⟨.closer .brace, c⟩ :: after := by
      simp [hts]
    rw [hall] at hn
    have := heights_le_of_nestsWithin hnests hn
    simp only [openCount_append, openCount_cons, openCount_nil, TokenKind.turn] at this
    exact object_eq_of_le after hnests (by omega)
  · have hhead : ∀ t ∈ us.head?, t.kind ≠ .opener .brace := by
      intro t ht hk
      obtain ⟨tail, rfl⟩ := List.head?_eq_some_iff.1 ht
      obtain ⟨kind, o⟩ := t
      obtain rfl : kind = .opener .brace := hk
      exact hbrace ⟨o, tail, rfl⟩
    rw [object_mismatch hle hhead, object_mismatch (Nat.zero_le _) hhead]

/-- The literals of the run of unknown value that is read at some place of a script. -/
theorem exists_run_of_dynamic {start : Nat} {expr : Expr} {rest : Rest us} (hp : AreProper ns)
    (hn : NestsWithin maxNesting (tokensOf ns)) (hts : tokensOf ns = before ++ us)
    (hd : depth ≤ openCount before) (h : Parser.dynamic depth start us = .ok (expr, rest)) :
    ∃ run stop found, us = run ++ rest.1 ∧ expr = .dynamic ⟨start, stop⟩ found ∧
      OutermostLiterals us run.length found := by
  obtain ⟨nests, tail, hnests, hus, ht⟩ := exists_front (balanced_tokensOf ns hp) hts
  obtain ⟨run, more, hrun, hi, hend⟩ := exists_item hnests ht
  obtain rfl : us = tokensOf run ++ more := hus.trans hrun
  rw [hts, ← List.append_assoc] at hn
  have := heights_le_of_nestsWithin hi.proper hn
  have hwithin : depth + heights run ≤ maxNesting := by omega
  obtain ⟨hrest, stop, found, he, hout⟩ := outermost_of_dynamic hi hend hwithin h
  exact ⟨tokensOf run, stop, found, by rw [hrest], he, hout⟩

end

/-- No object literal of a script no more than `maxNesting` deep is missed or found twice. -/
theorem finds_outermost_literals {source : String} {ts : List Token}
    (hs : Script.tokens source = .ok ts) (hn : NestsWithin maxNesting ts) :
    FindsLiterals source ts := by
  obtain ⟨ns, hp, rfl⟩ := exists_of_tokens hs
  refine ⟨?_, ?_, ?_, fun i j expr h => h.span_eq⟩
  · have hall : [] ++ tokensOf ns ++ [] = tokensOf ns := by simp
    rw [← hall] at hn
    have hheights := heights_le_of_nestsWithin hp hn
    have hwithin : 0 + heights ns ≤ maxNesting + 1 := by
      rw [openCount_nil] at hheights
      omega
    obtain ⟨places, found, hf, hselects⟩ := finds ns [] hp hwithin
    rw [List.append_nil] at hselects
    refine ⟨found, ?_, hselects.outermost⟩
    rw [document, hs]
    dsimp only
    rw [roots_eq_found hp, hf]
  · intro before us depth start expr rest hts hd h
    exact exists_run_of_dynamic hp hn hts hd h
  · intro before us depth hts hd
    exact object_eq hp hn hts hd

theorem finds_outermost_literals_block : ∃ ts,
    Script.tokens "{; {a}}, {}" = .ok ts ∧ NestsWithin maxNesting ts ∧
      FindsLiterals "{; {a}}, {}" ts := by
  have hs : Script.tokens "{; {a}}, {}" = .ok
      [⟨.opener .brace, ⟨0, 1⟩⟩, ⟨.semicolon, ⟨1, 2⟩⟩, ⟨.opener .brace, ⟨3, 4⟩⟩,
        ⟨.identifier "a", ⟨4, 5⟩⟩, ⟨.closer .brace, ⟨5, 6⟩⟩, ⟨.closer .brace, ⟨6, 7⟩⟩,
        ⟨.comma, ⟨7, 8⟩⟩, ⟨.opener .brace, ⟨9, 10⟩⟩, ⟨.closer .brace, ⟨10, 11⟩⟩] := by
    decide +kernel
  refine ⟨_, hs, ?_, finds_outermost_literals hs ?_⟩
  all_goals decide

end DesignTokens.Script
