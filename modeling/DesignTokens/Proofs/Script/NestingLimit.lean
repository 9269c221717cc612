import DesignTokens.Proofs.Script.Accepted
import DesignTokens.Proofs.Script.Attempts
import DesignTokens.Proofs.Script.Depth
import DesignTokens.Proofs.Script.ParserNests
import DesignTokens.Proofs.Script.TreePaths

/-! # The limit on nesting

A script is refused for its nesting exactly if the parser attempts something too deep in it, and
then at the place of that attempt. The limit lies between two numbers of open delimiters: one more
than `maxNesting` are always read, and literals that are nested deeper still are refused. -/
namespace DesignTokens.Script
open Nest

/-- The token opens a literal behind `k` others, each the first one inside the one before it. -/
inductive OpensBehind (t : Token) : Nat → List Token → Prop
  | brace {ts : List Token} (h : t.kind = .opener .brace) : OpensBehind t 0 (t :: ts)
  | bracket {ts : List Token} (h : t.kind = .opener .bracket) : OpensBehind t 0 (t :: ts)
  | inArray {k : Nat} {u : Token} {ts : List Token} (hu : u.kind = .opener .bracket)
      (h : OpensBehind t k ts) : OpensBehind t (k + 1) (u :: ts)
  | inObject {k : Nat} {u name colon : Token} {s : String} {ts : List Token}
      (hu : u.kind = .opener .brace) (hn : name.kind = .identifier s) (hc : colon.kind = .colon)
      (h : OpensBehind t k ts) : OpensBehind t (k + 1) (u :: name :: colon :: ts)

section
variable {t u name colon : Token} {k depth : Nat} {s : String} {ts : List Token}

theorem OpensBehind.exists_head (h : OpensBehind t k ts) :
    ∃ u us d, ts = u :: us ∧ u.kind = .opener d := by
  cases h with
  | brace h => exact ⟨_, _, _, rfl, h⟩
  | bracket h => exact ⟨_, _, _, rfl, h⟩
  | inArray hu h => exact ⟨_, _, _, rfl, hu⟩
  | inObject hu hn hc h => exact ⟨_, _, _, rfl, hu⟩

namespace Call

theorem Attempts.of_makes {c c' : Call} (hc : Makes c c') (h : Attempts t c') : Attempts t c := by
  obtain ⟨c'', hrun, hdeep⟩ := h
  exact ⟨c'', .head hc hrun, hdeep⟩

theorem attempts_object (hd : depth ≤ maxNesting) (hu : u.kind = .opener .brace)
    (hn : name.kind = .identifier s) (hc : colon.kind = .colon)
    (h : Attempts t (value depth ts)) :
    Attempts t (object depth (u :: name :: colon :: ts)) := by
  have hkey : Parser.key? (name :: colon :: ts) = some (some s, ⟨colon :: ts, by simp⟩) := by
    unfold Parser.key?
    simp [hn, Rest.tail]
  apply Attempts.of_makes (.members hd hu)
  apply Attempts.of_makes (.firstMember (by simp [hn]))
  exact Attempts.of_makes (.pair (by simp [hn]) hkey hc) h

private theorem attempts_array (hd : depth ≤ maxNesting) (hu : u.kind = .opener .bracket)
    (hopen : ∃ v us d, ts = v :: us ∧ v.kind = .opener d) (h : Attempts t (value depth ts)) :
    Attempts t (array depth (u :: ts)) := by
  obtain ⟨v, us, d, rfl, hv⟩ := hopen
  apply Attempts.of_makes (.items hd hu)
  apply Attempts.of_makes (.firstItem (by simp [hv]) (by simp [hv]))
  exact Attempts.of_makes (.plainItem (by simp [hv])) h

private theorem attempts_value (h : OpensBehind t k ts) (hk : depth + k = maxNesting) :
    Attempts t (value depth ts) := by
  induction h generalizing depth with
  | brace h =>
    apply Attempts.of_makes .literal
    apply Attempts.of_makes (.literalObject h)
    exact ⟨_, .refl, depth + 1, _, by omega, .inl rfl⟩
  | bracket h =>
    apply Attempts.of_makes .literal
    apply Attempts.of_makes (.literalArray h)
    exact ⟨_, .refl, depth + 1, _, by omega, .inr rfl⟩
  | inArray hu h ih =>
    apply Attempts.of_makes .literal
    apply Attempts.of_makes (.literalArray hu)
    exact attempts_array (by omega) hu h.exists_head (ih (by omega))
  | inObject hu hn hc h ih =>
    apply Attempts.of_makes .literal
    apply Attempts.of_makes (.literalObject hu)
    exact attempts_object (by omega) hu hn hc (ih (by omega))

end Call

/-- A literal inside more than `maxNesting` others is attempted, and too deep. -/
theorem Call.attempts_roots {before : List Token} (h : OpensBehind t (maxNesting + 1) ts)
    (hbrace : ∀ u ∈ ts.head?, u.kind = .opener .brace)
    (hbefore : ∀ u ∈ before, u.kind ≠ .opener .brace) : Attempts t (roots (before ++ ts)) := by
  induction before with
  | nil =>
    cases h with
    | inArray hu h => simp [hu] at hbrace
    | inObject hu hn hc h =>
      apply Attempts.of_makes (.object hu)
      exact attempts_object (Nat.zero_le _) hu hn hc (attempts_value h (by simp))
  | cons u before ih =>
    apply Attempts.of_makes (.rootsBehindToken (hbefore u List.mem_cons_self))
    exact ih fun v hv => hbefore v (List.mem_cons_of_mem _ hv)

end

/-- What the limit on nesting does to a script. -/
structure LimitsNesting (source : String) (ts : List Token) : Prop where
  /-- A script is refused for its nesting at the token of an attempt that is too deep, and for
  every such attempt. -/
  refuses : ∀ start, document source = .error (.nestingTooDeep start) ↔
    ∃ t, Call.Attempts t (.roots ts) ∧ t.span.start = start
  /-- No path in a tree that is read goes through more literals than the limit allows. -/
  paths : ∀ roots, document source = .ok roots →
    ∀ root ∈ roots, root.PathsWithin (maxNesting + 1)
  /-- A script without more open delimiters than the limit allows is read. -/
  reads : NestsWithin (maxNesting + 1) ts → ∃ roots, document source = .ok roots

section
variable {source : String} {ts : List Token}

theorem document_eq_error_iff (hs : tokens source = .ok ts) (start : Nat) :
    document source = .error (.nestingTooDeep start) ↔ Parser.roots ts = .error start := by
  rw [document, hs]
  dsimp only
  cases Parser.roots ts <;> simp

theorem document_eq_ok_iff (hs : tokens source = .ok ts) (roots : List Expr) :
    document source = .ok roots ↔ Parser.roots ts = .ok roots := by
  rw [document, hs]
  dsimp only
  cases Parser.roots ts <;> simp

/-- A script without more open delimiters than the limit allows is read. -/
theorem document_of_nestsWithin (hs : tokens source = .ok ts)
    (hn : NestsWithin (maxNesting + 1) ts) : ∃ roots, document source = .ok roots := by
  obtain ⟨ns, hp, rfl⟩ := exists_of_tokens hs
  obtain ⟨inside, hinside, hcount⟩ := exists_heights ns hp
  have hwithin : 0 + heights ns ≤ maxNesting + 1 := by
    have := hn inside hinside
    omega
  obtain ⟨-, hne⟩ := Reading.found_settled hwithin hwithin ns (Nat.le_refl _)
  cases hr : Reading.found 0 ns with
  | error start => exact (hne start hr).elim
  | ok roots => exact ⟨roots, by rw [document_eq_ok_iff hs, roots_eq_found hp, hr]⟩

/-- A script with a literal inside more than `maxNesting` others is refused at this literal. -/
theorem document_of_opensBehind {before : List Token} {t : Token}
    (hs : tokens source = .ok (before ++ ts)) (h : OpensBehind t (maxNesting + 1) ts)
    (hbrace : ∀ u ∈ ts.head?, u.kind = .opener .brace)
    (hbefore : ∀ u ∈ before, u.kind ≠ .opener .brace) :
    document source = .error (.nestingTooDeep t.span.start) := by
  rw [document_eq_error_iff hs]
  exact (Call.attempts_roots h hbrace hbefore).refuses

/-- Every script whose literals and delimiters are closed is read up to the limit and refused at
the first attempt beyond it. -/
theorem limits_nesting (hs : tokens source = .ok ts) : LimitsNesting source ts := by
  obtain ⟨ns, hp, rfl⟩ := exists_of_tokens hs
  constructor
  · intro start
    rw [document_eq_error_iff hs]
    exact Call.refuses_iff (c := .roots (tokensOf ns))
  · intro roots hroots
    rw [document_eq_ok_iff hs, roots_eq_found hp] at hroots
    exact Reading.found_paths 0 ns roots hroots
  · exact document_of_nestsWithin hs

end

theorem limits_nesting_inline : ∃ ts,
    tokens "{a: [{b}]}" = .ok ts ∧ LimitsNesting "{a: [{b}]}" ts := by
  have hs : tokens "{a: [{b}]}" = .ok
      [⟨.opener .brace, ⟨0, 1⟩⟩, ⟨.identifier "a", ⟨1, 2⟩⟩, ⟨.colon, ⟨2, 3⟩⟩,
        ⟨.opener .bracket, ⟨4, 5⟩⟩, ⟨.opener .brace, ⟨5, 6⟩⟩, ⟨.identifier "b", ⟨6, 7⟩⟩,
        ⟨.closer .brace, ⟨7, 8⟩⟩, ⟨.closer .bracket, ⟨8, 9⟩⟩, ⟨.closer .brace, ⟨9, 10⟩⟩] := by
    decide +kernel
  exact ⟨_, hs, limits_nesting hs⟩

end DesignTokens.Script
