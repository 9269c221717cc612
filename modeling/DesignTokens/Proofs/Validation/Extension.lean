import DesignTokens.Proofs.Markup.Words
import DesignTokens.Proofs.Resolution
import DesignTokens.Proofs.Validation.Examination
import Mathlib.Data.List.TakeWhile
import Mathlib.Tactic.ByContra

/-! # More tokens accept more classes

A class is accepted because of the tokens that are in effect, never because of one that is not. So no
class is lost to tokens that extend those in effect. -/
namespace DesignTokens
open Utility (Table)
open Validation (Rule)

namespace Families

/-- Every key of a family is one of the other tokens of this family. -/
def KeysWithin (tokens tokens' : Families) : Prop :=
  ∀ family, (tokens.get family).keys ⊆ (tokens'.get family).keys

end Families

theorem Validation.Rule.accepts_mono {tokens tokens' : Families} (h : tokens.KeysWithin tokens')
    (rule : Rule) {value : List Char} (haccepts : rule.accepts tokens value = true) :
    rule.accepts tokens' value = true := by
  by_contra hrefused
  rw [Bool.not_eq_true, accepts_eq_false_iff] at hrefused
  obtain ⟨hallows, hkey⟩ := hrefused
  have : rule.accepts tokens value = false :=
    (accepts_eq_false_iff rule tokens value).2 ⟨hallows, fun hmem => hkey (h rule.family hmem)⟩
  rw [this] at haccepts
  cases haccepts

namespace Declared

/-- More tokens laid over the extending ones. -/
def extended (d : Declared) (extra : Families) : Declared :=
  { d with
    extend := ⟨d.extend.colors.overlay extra.colors, d.extend.spacing.overlay extra.spacing⟩ }

private theorem get_extend_extended (d : Declared) (extra : Families) (family : Family) :
    (d.extended extra).extend.get family = (d.extend.get family).overlay (extra.get family) := by
  cases family <;> rfl

/-- The tokens in effect are extended by the same tokens. -/
theorem get_resolve_extended (d : Declared) (extra : Families) (theme : Theme) (family : Family) :
    ((d.extended extra).resolve theme).get family =
      ((d.resolve theme).get family).overlay (extra.get family) := by
  have hbaseline : (d.extended extra).baseline theme family = d.baseline theme family := rfl
  rw [get_resolve, get_resolve, get_extend_extended, hbaseline, OrderedMap.overlay_assoc]

private theorem keysWithin_extended (d : Declared) (extra : Families) (theme : Theme) :
    (d.resolve theme).KeysWithin ((d.extended extra).resolve theme) := by
  intro family key hkey
  rw [get_resolve_extended, OrderedMap.mem_keys_overlay]
  exact .inl hkey

/-- The validator of a configuration with a table of its own. -/
def validator (d : Declared) (theme : Theme) (options : Options) (table : Table) : Validator :=
  { Validator.ofOptions (d.resolve theme) options with table }

end Declared

namespace Validator
variable {v v' : Validator}

/-- With more tokens no class is refused that was accepted. -/
theorem accepts_mono (htable : v'.table = v.table) (hvariants : v'.stripVariants = v.stripVariants)
    (htokens : v.tokens.KeysWithin v'.tokens) {text : List Char} (h : v.accepts text = true) :
    v'.accepts text = true := by
  by_contra hrefused
  rw [Bool.not_eq_true, accepts_eq_false_iff_exists] at hrefused
  obtain ⟨f, hexamine⟩ := hrefused
  rcases examine_cases hexamine with ⟨harbitrary, -⟩ | ⟨harbitrary, lead, e, rule, value, hsplit,
    hfind, hrule, hrefused, -⟩
  · have := refuses_of_examine (examine_of_arbitrary (v := v) harbitrary)
    rw [this] at h
    cases h
  · have hsplit' : v.split text = ⟨lead, e.name.toList ++ value⟩ := by
      rw [← hsplit, split, split, hvariants]
    have hrefused' : rule.accepts v.tokens value = false := by
      by_contra haccepts
      rw [Bool.not_eq_false] at haccepts
      rw [rule.accepts_mono htokens haccepts] at hrefused
      cases hrefused
    rw [htable] at hfind
    have := refuses_of_examine (examine_of_refused harbitrary hsplit' hfind hrule hrefused')
    rw [this] at h
    cases h

/-- The words of the text that is left of a class list are the accepted ones. -/
theorem text_words_checkClasses (v : Validator) (classes : String) :
    (Markup.words (v.checkClasses classes).code.toList 0).map Markup.Word.text =
      ((Markup.words classes.toList 0).filter fun word => v.accepts word.text).map
        Markup.Word.text := by
  have hcode : (v.checkClasses classes).code.toList = [' '].intercalate
      (((Markup.words classes.toList 0).filter fun word => v.accepts word.text).map
        Markup.Word.text) := String.toList_ofList
  rw [hcode, Markup.text_words_intercalate]
  intro text htext
  obtain ⟨word, hword, rfl⟩ := List.mem_map.1 htext
  exact Markup.isWord_of_mem_words (List.mem_filter.1 hword).1

theorem value_words_checkClasses (v : Validator) (classes : String) :
    (Markup.words (v.checkClasses classes).code.toList 0).map Markup.Word.value =
      ((Markup.words classes.toList 0).filter fun word => v.accepts word.text).map
        Markup.Word.value := by
  have hvalue : Markup.Word.value = String.ofList ∘ Markup.Word.text := rfl
  rw [hvalue, ← List.map_map, ← List.map_map, text_words_checkClasses]

theorem sublist_checkClasses (h : ∀ text, v.accepts text = true → v'.accepts text = true)
    (classes : String) :
    ((Markup.words (v.checkClasses classes).code.toList 0).map Markup.Word.value).Sublist
      ((Markup.words (v'.checkClasses classes).code.toList 0).map Markup.Word.value) := by
  rw [value_words_checkClasses, value_words_checkClasses]
  apply List.Sublist.map
  apply List.monotone_filter_right
  intro word haccepts
  exact h word.text haccepts

end Validator

namespace Declared

/-- Tokens that extend a family take no class away. -/
theorem keeps_classes_extended (d : Declared) (extra : Families) (theme : Theme)
    (options : Options) (table : Table) :
    (∀ text, (d.validator theme options table).accepts text = true →
        ((d.extended extra).validator theme options table).accepts text = true) ∧
      ∀ classes : String,
        ((Markup.words ((d.validator theme options table).checkClasses classes).code.toList 0).map
          Markup.Word.value).Sublist
        ((Markup.words (((d.extended extra).validator theme options table).checkClasses
          classes).code.toList 0).map Markup.Word.value) := by
  have haccepts : ∀ text, (d.validator theme options table).accepts text = true →
      ((d.extended extra).validator theme options table).accepts text = true := by
    intro text h
    refine Validator.accepts_mono ?_ ?_ (d.keysWithin_extended extra theme) h
    · rfl
    · rfl
  exact ⟨haccepts, Validator.sublist_checkClasses haccepts⟩

/-- A table with one stem. -/
def backgroundTable : Table := ⟨[⟨.colors, "bg-"⟩]⟩

def sky : Families := ⟨.ofList [("sky", "#0cf")], .empty⟩

theorem keeps_classes_extended_sky :
    (inkColors.validator inkTheme Options.standard backgroundTable).accepts "md:bg-ink/50".toList =
        true ∧
      ((inkColors.extended sky).validator inkTheme Options.standard backgroundTable).accepts
        "md:bg-ink/50".toList = true := by
  have haccepts : (inkColors.validator inkTheme Options.standard backgroundTable).accepts
      "md:bg-ink/50".toList = true := by
    decide
  exact ⟨haccepts, (keeps_classes_extended inkColors sky inkTheme Options.standard
    backgroundTable).1 _ haccepts⟩

end Declared
end DesignTokens
