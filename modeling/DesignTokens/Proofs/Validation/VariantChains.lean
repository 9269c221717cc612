import DesignTokens.Proofs.Validation.Examination

/-! # Variants in front of a class

Variants are split off a class together with those that it has itself. What is left of the class is
looked up as it is without them, and its suggestions get the same variants in front. -/
namespace DesignTokens
open Utility (Entry Variants)
open Validation (Finding Reason Rule)

namespace Utility

/-- Variants without square brackets. The last one has its colon, as all of them do. -/
structure IsVariantChain (chain : List Char) : Prop where
  bracketless : '[' ∉ chain ∧ ']' ∉ chain
  colon : chain.getLast? = some ':'

variable {chain : List Char}

namespace IsVariantChain

private theorem colonLength_eq (h : IsVariantChain chain) : colonLength 0 chain = chain.length := by
  obtain ⟨front, rfl⟩ := List.getLast?_eq_some_iff.1 h.colon
  obtain ⟨hopen, hclose⟩ := h.bracketless
  have hfront : openBrackets 0 front = 0 :=
    openBrackets_of_not_mem (fun hc => hopen (List.mem_append_left _ hc))
      (fun hc => hclose (List.mem_append_left _ hc)) 0
  have hlt : front.length < colonLength 0 (front ++ [':']) := length_lt_colonLength hfront
  have hle := colonLength_le 0 (front ++ [':'])
  rw [List.length_append, List.length_singleton] at *
  omega

/-- A class is cut at the end of the chain if it is not cut further on. -/
theorem colonLength_append (h : IsVariantChain chain) (text : List Char) :
    colonLength 0 (chain ++ text) = chain.length + colonLength 0 text := by
  rw [Utility.colonLength_append, openBrackets_of_not_mem h.bracketless.1 h.bracketless.2]
  split
  · rename_i hzero
    rw [h.colonLength_eq, hzero, Nat.add_zero]
  · rfl

private theorem mem_append_iff (h : IsVariantChain chain) (text : List Char) :
    ('[' ∈ chain ++ text ∧ ']' ∈ chain ++ text) ↔ '[' ∈ text ∧ ']' ∈ text := by
  simp [h.bracketless]

theorem split_append (h : IsVariantChain chain) (text : List Char) :
    Variants.split (chain ++ text) =
      ⟨chain ++ (Variants.split text).lead, (Variants.split text).utility⟩ := by
  unfold Variants.split
  dsimp only
  rw [h.colonLength_append, List.drop_length_add_append]
  split
  · rw [Nat.add_assoc, List.take_length_add_append]
  · rw [List.take_length_add_append]

end IsVariantChain
end Utility

open Utility (IsVariantChain)

/-- What is found in a class that has more variants in front. -/
def Validation.Finding.behind (chain : List Char) (f : Finding) : Finding where
  value := if f.reason = .arbitraryValue then String.ofList chain ++ f.value else f.value
  reason := f.reason
  suggestions := f.suggestions.map (String.ofList chain ++ ·)

private theorem Validation.Rule.reason_ne_arbitraryValue (rule : Rule) :
    rule.reason ≠ .arbitraryValue := by
  cases rule <;> decide

namespace Validator
variable {v : Validator} {chain : List Char}

private theorem suggestions_append (v : Validator) (chain lead : List Char) (e : Entry)
    (rule : Rule) (value : List Char) : v.suggestions (chain ++ lead) e rule value =
      (v.suggestions lead e rule value).map (String.ofList chain ++ ·) := by
  rw [suggestions, suggestions, List.map_map]
  refine List.map_congr_left fun candidate _ => ?_
  rw [Function.comp_apply, String.ofList_append, String.append_assoc, String.append_assoc,
    String.append_assoc]

private theorem split_chain_append (hstrip : v.stripVariants = true) (hchain : IsVariantChain chain)
    (text : List Char) :
    v.split (chain ++ text) = ⟨chain ++ (v.split text).lead, (v.split text).utility⟩ := by
  simp only [split, hstrip, if_true]
  exact hchain.split_append text

/-- What is found in a class is found in it behind more variants, too. -/
theorem examine_chain_append (hstrip : v.stripVariants = true) (hchain : IsVariantChain chain)
    (text : List Char) : v.examine (chain ++ text) = (v.examine text).map (Finding.behind chain) := by
  by_cases harbitrary : '[' ∈ text ∧ ']' ∈ text
  · rw [examine_of_arbitrary harbitrary,
      examine_of_arbitrary ((hchain.mem_append_iff text).2 harbitrary), String.ofList_append]
    rfl
  · have harbitrary' := mt (hchain.mem_append_iff text).1 harbitrary
    obtain ⟨lead, utility, hsplit⟩ : ∃ lead utility, v.split text = ⟨lead, utility⟩ := ⟨_, _, rfl⟩
    have hsplit' := split_chain_append hstrip hchain text
    rw [hsplit] at hsplit'
    cases hfind : v.table.find? utility with
    | none =>
      rw [examine_of_find?_eq_none harbitrary hsplit hfind,
        examine_of_find?_eq_none harbitrary' hsplit' hfind]
      rfl
    | some e =>
      rw [examine_of_find? harbitrary hsplit hfind, examine_of_find? harbitrary' hsplit' hfind]
      cases Rule.ofEntry? e with
      | none => rfl
      | some rule =>
        rw [Option.bind_some, Option.bind_some, suggestions_append,
          apply_ite (Option.map (Finding.behind chain))]
        refine if_congr Iff.rfl rfl (congrArg some ?_)
        rw [Finding.behind, if_neg rule.reason_ne_arbitraryValue]

/-- More variants in front change nothing of whether a class is accepted, of the reason against it
and of the value that is refused, and they stand in front of its suggestions. -/
theorem verdict_behind_chain (hstrip : v.stripVariants = true) (hchain : IsVariantChain chain)
    (text : List Char) :
    (v.accepts (chain ++ text) = true ↔ v.accepts text = true) ∧
      ∀ f g, v.examine text = some f → v.examine (chain ++ text) = some g →
        g.reason = f.reason ∧ (f.reason ≠ .arbitraryValue →
          g.value = f.value ∧ g.suggestions = f.suggestions.map (String.ofList chain ++ ·)) := by
  have hexamine := examine_chain_append hstrip hchain text
  refine ⟨?_, fun f g hf hg => ?_⟩
  · rw [accepts, accepts, hexamine, Option.isNone_map]
  · rw [hexamine, hf, Option.map_some] at hg
    obtain rfl := Option.some.inj hg
    exact ⟨rfl, fun hreason => ⟨if_neg hreason, rfl⟩⟩

/-- A validator with one color behind one stem. -/
def inkValidator : Validator := ⟨⟨.ofList [("ink", "#000")], .empty⟩, ⟨[⟨.colors, "bg-"⟩]⟩, 3, true⟩

/-- The class has a variant, a mark of importance and a bracket of its own. -/
theorem verdict_behind_chain_important :
    inkValidator.stripVariants = true ∧ IsVariantChain "md:hover:".toList ∧
      inkValidator.examine "sm:!bg-in]k".toList =
        some ⟨"in]k", .unknownColor, ["sm:!bg-ink"]⟩ ∧
      (inkValidator.accepts ("md:hover:".toList ++ "sm:!bg-in]k".toList) = true ↔
        inkValidator.accepts "sm:!bg-in]k".toList = true) ∧
      ∃ g, inkValidator.examine ("md:hover:".toList ++ "sm:!bg-in]k".toList) = some g ∧
        g.reason = .unknownColor ∧ g.value = "in]k" ∧ g.suggestions = ["md:hover:sm:!bg-ink"] := by
  have hchain : IsVariantChain "md:hover:".toList := ⟨by decide, by decide⟩
  have hfound : inkValidator.examine "sm:!bg-in]k".toList =
      some ⟨"in]k", .unknownColor, ["sm:!bg-ink"]⟩ := by
    decide +kernel
  have hbehind : inkValidator.examine ("md:hover:".toList ++ "sm:!bg-in]k".toList) =
      some ⟨"in]k", .unknownColor, ["md:hover:sm:!bg-ink"]⟩ := by
    decide +kernel
  obtain ⟨haccepts, hsame⟩ :=
    @verdict_behind_chain inkValidator _ rfl hchain "sm:!bg-in]k".toList
  obtain ⟨hreason, hrest⟩ := hsame _ _ hfound hbehind
  obtain ⟨hvalue, hsuggestions⟩ := hrest (by decide)
  exact ⟨rfl, hchain, hfound, haccepts, _, hbehind, hreason, hvalue,
    hsuggestions.trans (by decide)⟩

end Validator
end DesignTokens
