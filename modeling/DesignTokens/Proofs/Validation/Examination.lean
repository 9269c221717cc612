import DesignTokens.Proofs.Overlay
import DesignTokens.Proofs.Utility.Table
import DesignTokens.Validation
import Mathlib.Data.List.TakeWhile
import Mathlib.Tactic.ByContra

/-! # Examining a class

A class is an arbitrary value, or the longest entry that fits its utility may have a rule for what
follows. -/
namespace DesignTokens
open Utility (Entry Table Variants)
open Validation (Rule Finding)

namespace Utility

theorem isStem_of_ofEntry? {e : Entry} {rule : Rule} (h : Rule.ofEntry? e = some rule) :
    e.isStem = true := by
  unfold Rule.ofEntry? at h
  split at h
  · assumption
  · cases h

end Utility

namespace Validation.Rule

/-- A rule refuses what it does not allow by itself and what names no token in effect. -/
theorem accepts_eq_false_iff (rule : Rule) (tokens : Families) (value : List Char) :
    rule.accepts tokens value = false ↔ rule.allows value = false ∧
      String.ofList (rule.target value) ∉ (tokens.get rule.family).keys := by
  rw [accepts, Bool.or_eq_false_iff, ← OrderedMap.contains_iff, Bool.not_eq_true]

end Validation.Rule

namespace Validator
variable {v : Validator} {text lead utility value : List Char} {e : Entry} {rule : Rule}
  {f : Finding}

theorem examine_of_arbitrary (h : '[' ∈ text ∧ ']' ∈ text) :
    v.examine text = some ⟨String.ofList text, .arbitraryValue, []⟩ := by
  rw [examine, if_pos (by simpa using h)]

/-- What is wrong with a class that an entry fits. -/
theorem examine_of_find? (harbitrary : ¬ ('[' ∈ text ∧ ']' ∈ text))
    (hsplit : v.split text = ⟨lead, utility⟩) (hfind : v.table.find? utility = some e) :
    v.examine text = (Rule.ofEntry? e).bind fun rule =>
      if rule.accepts v.tokens (e.remainder utility) then none
      else some ⟨String.ofList (e.remainder utility), rule.reason,
        v.suggestions lead e rule (e.remainder utility)⟩ := by
  rw [examine, if_neg (by simpa using harbitrary), hsplit]
  dsimp only
  rw [hfind]
  dsimp only
  cases Rule.ofEntry? e <;> rfl

/-- A class that no entry fits is not refused. -/
theorem examine_of_find?_eq_none (harbitrary : ¬ ('[' ∈ text ∧ ']' ∈ text))
    (hsplit : v.split text = ⟨lead, utility⟩) (hfind : v.table.find? utility = none) :
    v.examine text = none := by
  rw [examine, if_neg (by simpa using harbitrary), hsplit]
  dsimp only
  rw [hfind]

theorem examine_of_refused (harbitrary : ¬ ('[' ∈ text ∧ ']' ∈ text))
    (hsplit : v.split text = ⟨lead, e.name.toList ++ value⟩)
    (hfind : v.table.find? (e.name.toList ++ value) = some e)
    (hrule : Rule.ofEntry? e = some rule) (hrefused : rule.accepts v.tokens value = false) :
    v.examine text =
      some ⟨String.ofList value, rule.reason, v.suggestions lead e rule value⟩ := by
  rw [examine_of_find? harbitrary hsplit hfind, hrule, Option.bind_some,
    Entry.remainder_append (Utility.isStem_of_ofEntry? hrule)]
  exact if_neg (hrefused ▸ Bool.false_ne_true)

/-- What examining a class can find. -/
theorem examine_cases (h : v.examine text = some f) :
    (('[' ∈ text ∧ ']' ∈ text) ∧ f = ⟨String.ofList text, .arbitraryValue, []⟩) ∨
      ¬ ('[' ∈ text ∧ ']' ∈ text) ∧ ∃ lead e rule value,
        v.split text = ⟨lead, e.name.toList ++ value⟩ ∧
        v.table.find? (e.name.toList ++ value) = some e ∧ Rule.ofEntry? e = some rule ∧
        rule.accepts v.tokens value = false ∧
        f = ⟨String.ofList value, rule.reason, v.suggestions lead e rule value⟩ := by
  by_cases harbitrary : '[' ∈ text ∧ ']' ∈ text
  · rw [examine_of_arbitrary harbitrary] at h
    exact .inl ⟨harbitrary, (Option.some.inj h).symm⟩
  · refine .inr ⟨harbitrary, ?_⟩
    rw [examine, if_neg (by simpa using harbitrary)] at h
    dsimp only at h
    split at h
    · cases h
    · rename_i e hfind
      split at h
      · cases h
      · rename_i rule hrule
        obtain ⟨-, hfits, -⟩ := Table.longest_of_find? hfind
        obtain ⟨value, hvalue⟩ := Entry.prefix_of_fits hfits
        rw [← hvalue] at hfind
        rw [← hvalue, Entry.remainder_append (Utility.isStem_of_ofEntry? hrule)] at h
        split at h
        · cases h
        · rename_i hrefused
          refine ⟨(v.split text).lead, e, rule, value, ?_, hfind, hrule,
            Bool.eq_false_iff.2 hrefused, (Option.some.inj h).symm⟩
          rw [hvalue]

theorem refuses_of_examine (h : v.examine text = some f) : v.accepts text = false := by
  rw [accepts, h]
  rfl

theorem accepts_eq_false_iff_exists : v.accepts text = false ↔ ∃ f, v.examine text = some f := by
  rw [accepts, Option.isNone_eq_false_iff, Option.isSome_iff_exists]

end Validator
end DesignTokens
