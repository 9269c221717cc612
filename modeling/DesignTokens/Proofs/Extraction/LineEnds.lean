import DesignTokens.Proofs.Extraction.Relocation
import DesignTokens.Proofs.Script.LineEnds

/-! # Extraction from scripts with either line end

A script declares the same, or is refused for the same reason, whether its lines end in a line feed
or in a carriage return and a line feed, unless a literal goes over the end of a line. -/
namespace DesignTokens
open Script (Expr SpansLines lex withReturns nowhere)

def ExtractionFault.relocate (f : Nat → Nat) : ExtractionFault → ExtractionFault
  | .script fault => .script (fault.relocate f)
  | .depth fault => .depth (fault.relocate f)

namespace Declared

/-- What is read from a script, places aside, decides what it declares or why it is refused. -/
theorem extract_congr {source source' : String} (f : Nat → Nat) (options : Options)
    (h : Script.Fault.relocateOr f (List.map (Expr.relocate f)) (Script.document source') =
      Script.Fault.relocateOr f (List.map (Expr.relocate f)) (Script.document source)) :
    (extract source' options).mapError (ExtractionFault.relocate f) =
      (extract source options).mapError (ExtractionFault.relocate f) := by
  have hdecided (source : String) :
      (extract source options).mapError (ExtractionFault.relocate f) = (do
        let roots ← (Script.Fault.relocateOr f (List.map (Expr.relocate f))
          (Script.document source)).mapError ExtractionFault.script
        (ofRoots options roots).mapError ExtractionFault.depth) := by
    rw [extract]
    cases Script.document source with
    | error fault => rfl
    | ok roots =>
      change ((ofRoots options roots).mapError ExtractionFault.depth).mapError _ =
        (ofRoots options (roots.map (Expr.relocate f))).mapError ExtractionFault.depth
      rw [ofRoots_relocate]
      cases ofRoots options roots <;> rfl
  rw [hdecided, hdecided, h]

/-- Returns before the line feeds of a script change neither what it declares nor, places aside,
what it is refused for, where no template goes over a line end and no string or regular expression
holds an escaped one. -/
theorem extract_withReturns {source : String} (options : Options)
    (htemplates : ∀ t ∈ lex .byContext source, ∀ value, t.kind = .template value →
      ¬SpansLines source t)
    (hescaped : ∀ t ∈ lex .byContext source,
      (∃ value, t.kind = .string value) ∨ (∃ body, t.kind = .regex body) → ¬SpansLines source t) :
    (extract (String.ofList (withReturns source.toList)) options).mapError
        (ExtractionFault.relocate nowhere) =
      (extract source options).mapError (ExtractionFault.relocate nowhere) := by
  refine extract_congr nowhere options (Script.document_withReturns ?_)
  intro t ht htext
  cases hkind : t.kind with
  | template value => exact htemplates t ht value hkind
  | string value => exact hescaped t ht (.inl ⟨value, hkind⟩)
  | regex body => exact hescaped t ht (.inr ⟨body, hkind⟩)
  | _ =>
    rw [hkind] at htext
    cases htext

/-- The quote and the backtick in the comments open nothing. -/
def brokenLines : String :=
  "// '\nx = \x7b/* `\n */theme: \x7bcolors: \x7bink:\n'1'\x7d\x7d\x7d"

theorem extract_withReturns_brokenLines :
    (∀ t ∈ lex .byContext brokenLines, ∀ value, t.kind = .template value →
      ¬SpansLines brokenLines t) ∧
    (∀ t ∈ lex .byContext brokenLines,
      (∃ value, t.kind = .string value) ∨ (∃ body, t.kind = .regex body) →
      ¬SpansLines brokenLines t) ∧
    (extract "// '\r\nx = \x7b/* `\r\n */theme: \x7bcolors: \x7bink:\r\n'1'\x7d\x7d\x7d"
        Options.standard).mapError (ExtractionFault.relocate nowhere) =
      .ok (empty.overlay .override .colors (.ofList [("ink", "1")])) := by
  have htexts : (lex .byContext brokenLines).filter (·.kind.isText) =
      [⟨.string "1", ⟨40, 43⟩⟩] := by
    decide +kernel
  have hlines (t : Script.Token) (ht : t ∈ lex .byContext brokenLines) (htext : t.kind.isText) :
      ¬SpansLines brokenLines t := by
    have hmem : t ∈ (lex .byContext brokenLines).filter (·.kind.isText) :=
      List.mem_filter.2 ⟨ht, htext⟩
    rw [htexts, List.mem_singleton] at hmem
    subst hmem
    unfold SpansLines
    decide
  have htemplates : ∀ t ∈ lex .byContext brokenLines, ∀ value, t.kind = .template value →
      ¬SpansLines brokenLines t :=
    fun t ht value hkind => (hlines t ht (by rw [hkind]; rfl))
  have hescaped : ∀ t ∈ lex .byContext brokenLines,
      (∃ value, t.kind = .string value) ∨ (∃ body, t.kind = .regex body) →
      ¬SpansLines brokenLines t := by
    rintro t ht (⟨value, hkind⟩ | ⟨body, hkind⟩)
    · exact (hlines t ht (by rw [hkind]; rfl))
    · exact (hlines t ht (by rw [hkind]; rfl))
  refine ⟨htemplates, hescaped, ?_⟩
  exact (extract_withReturns Options.standard htemplates hescaped).trans (by decide +kernel)

/-- A line feed that is escaped in a string belongs to it, and the return before it ends the string
at the line feed. -/
theorem extract_escaped_lineEnd :
    extract "x=\x7btheme:\x7bcolors:\x7ba:'b\\\nc'\x7d\x7d\x7d" Options.standard =
      .ok (empty.overlay .override .colors (.ofList [("a", "bc")])) ∧
    extract (String.ofList (withReturns
        "x=\x7btheme:\x7bcolors:\x7ba:'b\\\nc'\x7d\x7d\x7d".toList)) Options.standard =
      .error (.script (.unterminatedLiteral .string ⟨20, 25⟩)) := by
  constructor <;> decide +kernel

end Declared
end DesignTokens
