import DesignTokens.Proofs.Validation.Examination
import Mathlib.Data.List.TakeWhile
import Mathlib.Tactic.ByContra

/-! # Which classes are accepted

A class is refused as an arbitrary value, or because the first of the longest entries that fit what
it applies is a stem of which something else is behind it than a token in effect or a value that is
always allowed. -/
namespace DesignTokens
open Utility (Entry Table IsBehindVariants IsUnmarked)
open Validation (Reason Rule Finding)

namespace Validation

/-- A value without the opacity that may stand at its end. -/
def WithoutOpacity (value color : List Char) : Prop :=
  (∃ digits, value = color ++ '/' :: digits ∧ isDigits digits = true) ∨
    color = value ∧ ∀ before digits, value = before ++ '/' :: digits → isDigits digits = false

/-- Digits, a slash and digits. -/
def IsFraction (value : List Char) : Prop :=
  ∃ numerator denominator, value = numerator ++ '/' :: denominator ∧
    isDigits numerator = true ∧ isDigits denominator = true

theorem slash_not_mem_of_isDigits {cs : List Char} (h : isDigits cs = true) : '/' ∉ cs := by
  intro hslash
  rw [isDigits, Bool.and_eq_true, List.all_eq_true] at h
  exact absurd (h.2 '/' hslash) (by decide)

theorem takeWhile_slash {cs : List Char} (h : '/' ∉ cs) (rest : List Char) :
    (cs ++ '/' :: rest).takeWhile (· ≠ '/') = cs := by
  rw [List.takeWhile_append_of_pos, List.takeWhile_cons_of_neg (by decide), List.append_nil]
  intro c hc
  have : c ≠ '/' := fun hslash => h (hslash ▸ hc)
  simpa using this

theorem takeWhile_of_not_mem {cs : List Char} (h : '/' ∉ cs) : cs.takeWhile (· ≠ '/') = cs := by
  rw [List.takeWhile_eq_self_iff]
  intro c hc
  have : c ≠ '/' := fun hslash => h (hslash ▸ hc)
  simpa using this

/-- Only the last slash is looked at. -/
theorem stripOpacity_append {digits : List Char} (h : '/' ∉ digits) (color : List Char) :
    stripOpacity (color ++ '/' :: digits) =
      if isDigits digits then color else color ++ '/' :: digits := by
  have htail : ((color ++ '/' :: digits).reverse.takeWhile (· ≠ '/')).reverse = digits := by
    have hreverse : '/' ∉ digits.reverse := by simpa using h
    rw [List.reverse_append, List.reverse_cons, List.append_assoc, List.singleton_append,
      takeWhile_slash hreverse, List.reverse_reverse]
  have hlength : (color ++ '/' :: digits).length - digits.length - 1 = color.length := by
    simp
    omega
  have hlt : digits.length < (color ++ '/' :: digits).length := by
    simp
    omega
  rw [stripOpacity, htail, hlength, List.take_left, decide_eq_true hlt, Bool.true_and]

theorem stripOpacity_of_not_mem {cs : List Char} (h : '/' ∉ cs) : stripOpacity cs = cs := by
  have htail : (cs.reverse.takeWhile (· ≠ '/')).reverse = cs := by
    rw [takeWhile_of_not_mem (by simpa using h), List.reverse_reverse]
  rw [stripOpacity, htail]
  simp

theorem exists_last_slash {cs : List Char} (h : '/' ∈ cs) :
    ∃ before after, cs = before ++ '/' :: after ∧ '/' ∉ after := by
  obtain ⟨after, before, hcs, hafter⟩ := List.eq_append_cons_of_mem (List.mem_reverse.2 h)
  refine ⟨before.reverse, after.reverse, ?_, by simpa using hafter⟩
  rw [← List.reverse_reverse cs, hcs]
  simp

theorem stripOpacity_eq_iff (value color : List Char) :
    stripOpacity value = color ↔ WithoutOpacity value color := by
  constructor
  · rintro rfl
    by_cases hslash : '/' ∈ value
    · obtain ⟨before, after, rfl, hafter⟩ := exists_last_slash hslash
      rw [stripOpacity_append hafter]
      cases hdigits : isDigits after with
      | true => exact .inl ⟨after, rfl, hdigits⟩
      | false =>
        refine .inr ⟨rfl, fun before' digits heq => ?_⟩
        by_contra hdigits'
        rw [Bool.not_eq_false] at hdigits'
        have := congrArg stripOpacity heq
        rw [stripOpacity_append hafter, stripOpacity_append (slash_not_mem_of_isDigits hdigits'),
          hdigits, hdigits', heq] at this
        simp at this
    · rw [stripOpacity_of_not_mem hslash]
      refine .inr ⟨rfl, fun before digits heq => absurd ?_ hslash⟩
      rw [heq]
      simp
  · rintro (⟨digits, rfl, hdigits⟩ | ⟨rfl, hnone⟩)
    · rw [stripOpacity_append (slash_not_mem_of_isDigits hdigits), if_pos hdigits]
    · by_cases hslash : '/' ∈ color
      · obtain ⟨before, after, rfl, hafter⟩ := exists_last_slash hslash
        rw [stripOpacity_append hafter, hnone before after rfl]
        rfl
      · exact stripOpacity_of_not_mem hslash

theorem isFraction_iff (value : List Char) : isFraction value = true ↔ IsFraction value := by
  by_cases hslash : '/' ∈ value
  · obtain ⟨before, after, rfl, hbefore⟩ := List.eq_append_cons_of_mem hslash
    have hvalue : isFraction (before ++ '/' :: after) = (isDigits before && isDigits after) := by
      rw [isFraction, takeWhile_slash hbefore, List.drop_left]
    rw [hvalue, Bool.and_eq_true]
    constructor
    · rintro ⟨hnumerator, hdenominator⟩
      exact ⟨before, after, rfl, hnumerator, hdenominator⟩
    · rintro ⟨numerator, denominator, heq, hnumerator, hdenominator⟩
      have hfirst := congrArg (List.takeWhile (· ≠ '/')) heq
      rw [takeWhile_slash hbefore, takeWhile_slash (slash_not_mem_of_isDigits hnumerator)] at hfirst
      subst hfirst
      obtain ⟨-, rfl⟩ := List.cons_eq_cons.1 (List.append_cancel_left heq)
      exact ⟨hnumerator, hdenominator⟩
  · have hvalue : isFraction value = false := by
      rw [isFraction, takeWhile_of_not_mem hslash, List.drop_length]
    rw [hvalue]
    constructor
    · intro h
      cases h
    · rintro ⟨numerator, denominator, rfl, -⟩
      simp at hslash

end Validation

open Validation (WithoutOpacity IsFraction textSizes borderWidths sizeKeywords)

namespace Validator
variable {v : Validator} {text : List Char}

/-- What is left of a class once its variants and its mark of importance are taken off. -/
def Applies (v : Validator) (text utility : List Char) : Prop :=
  if v.stripVariants then ∃ part, IsBehindVariants text part ∧ IsUnmarked part utility
  else utility = text

/-- The class is checked as the stem `e` with `value` behind it. -/
structure Governs (v : Validator) (text : List Char) (e : Entry) (value : List Char) : Prop where
  not_arbitrary : ¬ ('[' ∈ text ∧ ']' ∈ text)
  applies : v.Applies text (e.name.toList ++ value)
  longest : v.table.IsFirstLongest (e.name.toList ++ value) e
  stem : e.isStem = true

/-- The class is refused, and for this reason. -/
inductive Refuses (v : Validator) (text : List Char) : Reason → Prop
  | arbitraryValue (h : '[' ∈ text ∧ ']' ∈ text) : Refuses v text .arbitraryValue
  | unknownColor {stem : String} {value color : List Char} (h : v.Governs text ⟨.colors, stem⟩ value)
      (hstem : stem ≠ "text-" ∧ stem ≠ "border-") (hcolor : WithoutOpacity value color)
      (hkey : String.ofList color ∉ v.tokens.colors.keys) : Refuses v text .unknownColor
  | unknownTextSizeOrColor {value color : List Char} (h : v.Governs text ⟨.colors, "text-"⟩ value)
      (hsize : String.ofList value ∉ textSizes) (hcolor : WithoutOpacity value color)
      (hkey : String.ofList color ∉ v.tokens.colors.keys) : Refuses v text .unknownTextSizeOrColor
  | unknownBorderWidthOrColor {value color : List Char}
      (h : v.Governs text ⟨.colors, "border-"⟩ value)
      (hwidth : String.ofList value ∉ borderWidths) (hcolor : WithoutOpacity value color)
      (hkey : String.ofList color ∉ v.tokens.colors.keys) :
      Refuses v text .unknownBorderWidthOrColor
  | unknownSpacing {stem : String} {value : List Char} (h : v.Governs text ⟨.spacing, stem⟩ value)
      (hkey : String.ofList value ∉ v.tokens.spacing.keys) : Refuses v text .unknownSpacing
  | unknownSize {stem : String} {value : List Char} (h : v.Governs text ⟨.layout, stem⟩ value)
      (hstem : stem ∈ Utility.sizingStems) (hkeyword : String.ofList value ∉ sizeKeywords)
      (hfraction : ¬ IsFraction value) (hkey : String.ofList value ∉ v.tokens.spacing.keys) :
      Refuses v text .unknownSize
  | unknownBorderSide {stem : String} {value : List Char} (h : v.Governs text ⟨.layout, stem⟩ value)
      (hstem : stem ∈ Utility.borderSideStems)
      (hkey : String.ofList value ∉ v.tokens.spacing.keys) : Refuses v text .unknownSpacing

theorem applies_iff {utility : List Char} :
    v.Applies text utility ↔ (v.split text).utility = utility := by
  unfold Applies split
  split
  · exact Utility.Variants.utility_split_eq_iff.symm
  · exact eq_comm

theorem exists_split_iff {utility : List Char} :
    (∃ lead, v.split text = ⟨lead, utility⟩) ↔ v.Applies text utility := by
  rw [applies_iff]
  constructor
  · rintro ⟨lead, hsplit⟩
    rw [hsplit]
  · rintro rfl
    exact ⟨_, rfl⟩

private theorem disjoint_stems {stem : String} (h : stem ∈ Utility.borderSideStems) :
    stem ∉ Utility.sizingStems := by
  have hall : ∀ stem ∈ Utility.borderSideStems, stem ∉ Utility.sizingStems := by decide
  exact hall stem h

/-- A rule that refuses what is behind its stem gives its reason. -/
theorem refuses_of_rule {e : Entry} {rule : Rule} {value : List Char} (h : v.Governs text e value)
    (hrule : Rule.ofEntry? e = some rule) (hrefused : rule.accepts v.tokens value = false) :
    v.Refuses text rule.reason := by
  obtain ⟨hallows, hkey⟩ := (Rule.accepts_eq_false_iff rule v.tokens value).1 hrefused
  have hcolor : WithoutOpacity value (Validation.stripOpacity value) :=
    (Validation.stripOpacity_eq_iff value _).1 rfl
  obtain ⟨category, stem⟩ := e
  rw [Rule.ofEntry?, if_pos h.stem] at hrule
  cases category with
  | colors =>
    dsimp only at hrule
    split at hrule
    · rename_i htext
      subst htext
      cases hrule
      exact .unknownTextSizeOrColor h (by simpa [Rule.allows] using hallows) hcolor hkey
    · rename_i htext
      split at hrule
      · rename_i hborder
        subst hborder
        cases hrule
        exact .unknownBorderWidthOrColor h (by simpa [Rule.allows] using hallows) hcolor hkey
      · rename_i hborder
        cases hrule
        exact .unknownColor h ⟨htext, hborder⟩ hcolor hkey
  | spacing =>
    cases hrule
    exact .unknownSpacing h hkey
  | layout =>
    dsimp only at hrule
    split at hrule
    · rename_i hsizing
      cases hrule
      rw [Rule.allows, Bool.or_eq_false_iff, ← Bool.not_eq_true (Validation.isFraction value),
        Validation.isFraction_iff] at hallows
      exact .unknownSize h hsizing (by simpa using hallows.1) hallows.2 hkey
    · split at hrule
      · rename_i hside
        cases hrule
        exact .unknownBorderSide h hside hkey
      · cases hrule
  | typography => cases hrule
  | decoration => cases hrule

/-- Behind every reason but the first is a rule that refuses what is behind its stem. -/
theorem Refuses.exists_rule {reason : Reason} (h : v.Refuses text reason) :
    (('[' ∈ text ∧ ']' ∈ text) ∧ reason = .arbitraryValue) ∨
      ∃ e rule value, v.Governs text e value ∧ Rule.ofEntry? e = some rule ∧
        rule.accepts v.tokens value = false ∧ reason = rule.reason := by
  simp only [Rule.accepts_eq_false_iff]
  cases h with
  | arbitraryValue h => exact .inl ⟨h, rfl⟩
  | @unknownColor stem value color h hstem hcolor hkey =>
    rw [← Validation.stripOpacity_eq_iff] at hcolor
    refine .inr ⟨_, .color, value, h, ?_, ⟨rfl, ?_⟩, rfl⟩
    · rw [Rule.ofEntry?, if_pos h.stem]
      dsimp only
      rw [if_neg hstem.1, if_neg hstem.2]
    · rwa [← hcolor] at hkey
  | @unknownTextSizeOrColor value color h hsize hcolor hkey =>
    rw [← Validation.stripOpacity_eq_iff] at hcolor
    refine .inr ⟨_, .textSizeOrColor, value, h, by decide, ⟨?_, ?_⟩, rfl⟩
    · simpa [Rule.allows] using hsize
    · rwa [← hcolor] at hkey
  | @unknownBorderWidthOrColor value color h hwidth hcolor hkey =>
    rw [← Validation.stripOpacity_eq_iff] at hcolor
    refine .inr ⟨_, .borderWidthOrColor, value, h, by decide, ⟨?_, ?_⟩, rfl⟩
    · simpa [Rule.allows] using hwidth
    · rwa [← hcolor] at hkey
  | @unknownSpacing stem value h hkey =>
    refine .inr ⟨_, .spacing, value, h, ?_, ⟨rfl, hkey⟩, rfl⟩
    rw [Rule.ofEntry?, if_pos h.stem]
  | @unknownSize stem value h hstem hkeyword hfraction hkey =>
    refine .inr ⟨_, .size, value, h, ?_, ⟨?_, hkey⟩, rfl⟩
    · rw [Rule.ofEntry?, if_pos h.stem]
      exact if_pos hstem
    · rw [Rule.allows, Bool.or_eq_false_iff, ← Bool.not_eq_true (Validation.isFraction value),
        Validation.isFraction_iff]
      exact ⟨by simpa using hkeyword, hfraction⟩
  | @unknownBorderSide stem value h hstem hkey =>
    refine .inr ⟨_, .borderSide, value, h, ?_, ⟨rfl, hkey⟩, rfl⟩
    rw [Rule.ofEntry?, if_pos h.stem]
    exact (if_neg (disjoint_stems hstem)).trans (if_pos hstem)

theorem exists_finding_iff {reason : Reason} :
    (∃ f, v.examine text = some f ∧ f.reason = reason) ↔ v.Refuses text reason := by
  constructor
  · rintro ⟨f, hexamine, rfl⟩
    rcases examine_cases hexamine with ⟨harbitrary, rfl⟩ | ⟨harbitrary, lead, e, rule, value, hsplit,
      hfind, hrule, hrefused, rfl⟩
    · exact .arbitraryValue harbitrary
    · exact refuses_of_rule ⟨harbitrary, exists_split_iff.1 ⟨lead, hsplit⟩,
        Table.find?_eq_some_iff.1 hfind, Utility.isStem_of_ofEntry? hrule⟩ hrule hrefused
  · intro h
    rcases h.exists_rule with ⟨harbitrary, rfl⟩ | ⟨e, rule, value, hgoverns, hrule, hrefused, rfl⟩
    · exact ⟨_, examine_of_arbitrary harbitrary, rfl⟩
    · obtain ⟨lead, hsplit⟩ := exists_split_iff.2 hgoverns.applies
      exact ⟨_, examine_of_refused hgoverns.not_arbitrary hsplit
        (Table.find?_eq_some_iff.2 hgoverns.longest) hrule hrefused, rfl⟩

/-- A class is refused exactly if there is a reason for it, and then for this reason. -/
theorem refuses_for_reason (v : Validator) (text : List Char) :
    (v.accepts text = false ↔ ∃ reason, v.Refuses text reason) ∧
      ∀ reason, (v.examine text).map Finding.reason = some reason ↔ v.Refuses text reason := by
  constructor
  · rw [accepts_eq_false_iff_exists]
    constructor
    · rintro ⟨f, hexamine⟩
      exact ⟨f.reason, exists_finding_iff.1 ⟨f, hexamine, rfl⟩⟩
    · rintro ⟨reason, h⟩
      obtain ⟨f, hexamine, -⟩ := exists_finding_iff.2 h
      exact ⟨f, hexamine⟩
  · intro reason
    rw [Option.map_eq_some_iff]
    exact exists_finding_iff

end Validator
end DesignTokens
