import DesignTokens.Proofs.Script.Lexemes
import DesignTokens.Proofs.Script.ParserNests
import DesignTokens.Proofs.Script.Relocation

/-! # The scripts that are read

A script has tokens where every literal is terminated and every delimiter has its partner. -/
namespace DesignTokens.Script
open TokenKind (IsUnterminated)

theorem unterminated?_eq_none_iff (ts : List Token) :
    unterminated? ts = none ↔ ∀ t ∈ ts, ¬IsUnterminated t.kind := by
  induction ts with
  | nil => simp [unterminated?]
  | cons t ts ih =>
    obtain ⟨kind, span⟩ := t
    rw [List.forall_mem_cons, ← ih]
    cases kind <;> simp [unterminated?, IsUnterminated]

theorem tokens_eq_ok_iff (source : String) (ts : List Token) :
    tokens source = .ok ts ↔ significant (lex .byContext source) = ts ∧
      (∀ t ∈ ts, ¬IsUnterminated t.kind) ∧ ∃ ns, Nest.AreProper ns ∧ Nest.tokensOf ns = ts := by
  rw [tokens]
  constructor
  · intro h
    split at h
    · cases h
    · rename_i hnone
      split at h
      · cases h
      · rename_i ns hns
        obtain rfl := Except.ok.inj h
        exact ⟨rfl, (unterminated?_eq_none_iff _).1 hnone, ns, Nest.ofTokens_sound hns⟩
  · rintro ⟨rfl, hterm, ns, hp, hns⟩
    rw [(unterminated?_eq_none_iff _).2 hterm, ← hns, Nest.ofTokens_tokensOf hp]

/-- The tokens of a script are those of some nests. -/
theorem exists_of_tokens {source : String} {ts : List Token} (h : tokens source = .ok ts) :
    ∃ ns, Nest.AreProper ns ∧ Nest.tokensOf ns = ts :=
  ((tokens_eq_ok_iff source ts).1 h).2.2

/-- No token of a script is a literal that the text ends in, not even among the trivia. -/
theorem not_unterminated_of_tokens {source : String} {ts : List Token}
    (h : tokens source = .ok ts) : ∀ t ∈ lex .byContext source, ¬IsUnterminated t.kind := by
  obtain ⟨rfl, hterm, -⟩ := (tokens_eq_ok_iff source ts).1 h
  intro t ht
  by_cases hkeep : t ∈ significant (lex .byContext source)
  · exact hterm t hkeep
  · rintro ⟨literal, hk⟩
    refine hkeep (List.mem_filter.2 ⟨ht, ?_⟩)
    simp [hk, TokenKind.isTrivia]

theorem tokens_of_document {source : String} {roots : List Expr} (h : document source = .ok roots) :
    ∃ ts, tokens source = .ok ts ∧ Parser.roots ts = .ok roots := by
  rw [document] at h
  cases hts : tokens source with
  | error fault =>
    rw [hts] at h
    cases h
  | ok ts =>
    rw [hts] at h
    dsimp only at h
    refine ⟨ts, rfl, ?_⟩
    cases hr : Parser.roots ts with
    | error start =>
      rw [hr] at h
      cases h
    | ok found =>
      rw [hr] at h
      exact congrArg Except.ok (Except.ok.inj h)

section
variable (f : Nat → Nat)

/-- What the checks make of tokens. -/
def checked (ts : List Token) : Except Fault (List Token) :=
  match unterminated? ts with
  | some fault => .error fault
  | none =>
    match Nest.ofTokens ts with
    | .error fault => .error fault
    | .ok _ => .ok ts

theorem tokens_eq_checked (source : String) :
    tokens source = checked (significant (lex .byContext source)) := rfl

theorem checked_relocate (ts : List Token) :
    checked (ts.map (Token.relocate f)) =
      Fault.relocateOr f (List.map (Token.relocate f)) (checked ts) := by
  rw [checked, checked, unterminated?_relocate, Nest.ofTokens_relocate]
  cases unterminated? ts with
  | some fault => rfl
  | none => cases Nest.ofTokens ts <;> rfl

theorem roots_relocate {ns : List Nest} (h : Nest.AreProper ns) :
    Parser.roots ((Nest.tokensOf ns).map (Token.relocate f)) =
      Reading.relocateFound f (Parser.roots (Nest.tokensOf ns)) := by
  rw [← Nest.tokensOf_relocate, roots_eq_found ((Nest.areProper_relocate _ _).2 h),
    Reading.found_relocate, ← roots_eq_found h]

/-- What is read from the tokens that the checks let through. -/
def expressions (r : Except Fault (List Token)) : Except Fault (List Expr) :=
  match r with
  | .error fault => .error fault
  | .ok ts =>
    match Parser.roots ts with
    | .ok roots => .ok roots
    | .error start => .error (.nestingTooDeep start)

theorem document_eq_expressions (source : String) :
    document source = expressions (tokens source) := rfl

/-- What comes of the checks, wherever the tokens stand, decides what comes of the script. -/
theorem expressions_relocate (source : String) :
    expressions (Fault.relocateOr f (List.map (Token.relocate f)) (tokens source)) =
      Fault.relocateOr f (List.map (Expr.relocate f)) (document source) := by
  rw [document_eq_expressions]
  cases hts : tokens source with
  | error fault => rfl
  | ok ts =>
    obtain ⟨ns, hns, rfl⟩ := exists_of_tokens hts
    have hroots := roots_relocate f hns
    rw [Fault.relocateOr, Except.map, Except.mapError, expressions, expressions, hroots]
    cases Parser.roots (Nest.tokensOf ns) with
    | error start => rfl
    | ok roots => exact congrArg Except.ok (Expr.relocateAll_eq_map f roots)

end

end DesignTokens.Script
