import DesignTokens.Proofs.Overlay
import DesignTokens.Theme

/-! # The tokens in effect

The tokens of a family in effect are those that extend it, laid over the ones that take the place of
the default tokens, or over the default tokens. Each family is settled by itself. -/
namespace DesignTokens

namespace OrderedMap
variable {α : Type}

/-- The keys of `base` in their order, then those that only `upper` has in theirs, each with its
value in `upper` or else with that in `base`. -/
structure IsMerged (base upper merged : OrderedMap α) : Prop where
  keys : merged.keys = base.keys ++ upper.keys.filter fun key => key ∉ base.keys
  nodup : merged.keys.Nodup
  values : ∀ key, merged.get? key = if key ∈ upper.keys then upper.get? key else base.get? key

theorem isMerged_overlay (base upper : OrderedMap α) :
    IsMerged base upper (base.overlay upper) := by
  refine ⟨keys_overlay base upper, (base.overlay upper).keys_nodup, fun key => ?_⟩
  rw [get?_overlay]
  split
  · rename_i hkey
    obtain ⟨value, hvalue⟩ := Option.isSome_iff_exists.1 ((contains_iff upper key).2 hkey)
    rw [hvalue, Option.some_or]
  · rename_i hkey
    have hnone : upper.get? key = none := lookup_eq_none hkey
    rw [hnone, Option.none_or]

end OrderedMap

namespace Declared
variable {d d' : Declared} {theme theme' : Theme} {family : Family}

/-- What the extending tokens of a family are laid over. -/
def baseline (d : Declared) (theme : Theme) (family : Family) : TokenMap :=
  if (d.override.get family).keys = [] then theme.tokens.get family else d.override.get family

theorem get_resolve (d : Declared) (theme : Theme) (family : Family) :
    (d.resolve theme).get family = (d.baseline theme family).overlay (d.extend.get family) := by
  have hempty : (d.override.get family).isEmpty = true ↔ (d.override.get family).keys = [] := by
    rw [OrderedMap.isEmpty, List.isEmpty_iff, OrderedMap.keys, List.map_eq_nil_iff]
  have hfamily : (d.resolve theme).get family = d.resolveFamily theme family := by
    cases family <;> rfl
  rw [hfamily, resolveFamily, baseline]
  simp only [hempty]

/-- A family in effect depends on nothing but the declarations and the defaults of this family. -/
theorem get_resolve_congr (hoverride : d.override.get family = d'.override.get family)
    (hextend : d.extend.get family = d'.extend.get family)
    (htheme : theme.tokens.get family = theme'.tokens.get family) :
    (d.resolve theme).get family = (d'.resolve theme').get family := by
  rw [get_resolve, get_resolve, baseline, baseline, hoverride, hextend, htheme]

/-- The tokens of each family in effect are merged from the baseline and the extending ones of this
family, whatever there is of the other one. -/
theorem resolve_merges (d : Declared) (theme : Theme) (family : Family) :
    OrderedMap.IsMerged (d.baseline theme family) (d.extend.get family)
        ((d.resolve theme).get family) ∧
      ∀ (d' : Declared) (theme' : Theme), d'.override.get family = d.override.get family →
        d'.extend.get family = d.extend.get family →
        theme'.tokens.get family = theme.tokens.get family →
        (d'.resolve theme').get family = (d.resolve theme).get family := by
  constructor
  · rw [get_resolve]
    exact OrderedMap.isMerged_overlay _ _
  · intro d' theme' hoverride hextend htheme
    exact get_resolve_congr hoverride hextend htheme

def inkTheme : Theme := ⟨"1", ⟨.ofList [("red", "#f00"), ("blue", "#00f")], .ofList [("1", "4px")]⟩⟩

/-- Colors take the place of the default ones and are extended, with a color among them that both
declare. -/
def inkColors : Declared :=
  ⟨⟨.ofList [("ink", "#111"), ("red", "#e00")], .empty⟩,
    ⟨.ofList [("sky", "#0cf"), ("ink", "#222")], .empty⟩⟩

/-- The same colors beside spacing. -/
def inkColorsAndGaps : Declared :=
  ⟨⟨inkColors.override.colors, .ofList [("2", "8px")]⟩,
    ⟨inkColors.extend.colors, .ofList [("3", "9px")]⟩⟩

theorem resolve_merges_ink :
    OrderedMap.IsMerged (inkColors.baseline inkTheme .colors) (inkColors.extend.get .colors)
        ((inkColors.resolve inkTheme).get .colors) ∧
      ((inkColors.resolve inkTheme).get .colors).entries =
        [("ink", "#222"), ("red", "#e00"), ("sky", "#0cf")] ∧
      (inkColorsAndGaps.resolve inkTheme).get .colors = (inkColors.resolve inkTheme).get .colors :=
  ⟨(resolve_merges inkColors inkTheme .colors).1, by decide,
    (resolve_merges inkColors inkTheme .colors).2 inkColorsAndGaps inkTheme rfl rfl rfl⟩

end Declared
end DesignTokens
