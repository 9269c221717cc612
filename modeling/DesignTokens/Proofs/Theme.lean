import DesignTokens.Proofs.TokenTree
import DesignTokens.Theme

/-! # Themes read from their texts -/
namespace DesignTokens.Theme
open Json.Reader
open TokenTree (IsDistinct flatten)

/-- A theme as it is published, with the groups of both families. -/
def document (version : String) (colors spacing : List (String × TokenTree)) : Json.Value :=
  .object [("version", .string version), ("colors", (TokenTree.group colors).toJson),
    ("spacing", (TokenTree.group spacing).toJson)]

private theorem versionField_gives (nesting : Nat) (version : String) (left : List Char) :
    (versionField.read nesting (Json.quoted version ++ left)).Gives
      (fun theme => { theme with version }) left := by
  have h := (string_gives nesting version left).mapValue fun version (theme : Theme) =>
    { theme with version }
  exact h

theorem familyField_gives (family : Family) {entries : List (String × TokenTree)}
    (hd : IsDistinct (.group entries)) {nesting : Nat}
    (h : (TokenTree.group entries).height ≤ nesting) (left : List Char) :
    ((familyField family).read nesting ((TokenTree.group entries).toJson.compact ++ left)).Gives
      (fun theme =>
        { theme with tokens := theme.tokens.update family fun _ => flatten entries }) left := by
  obtain ⟨m, rfl, hm⟩ := TokenTree.map_gives hd h left
  exact hm.mapValue fun groups (theme : Theme) =>
    { theme with tokens := theme.tokens.update family fun _ => flatten groups.entries }

variable {colors spacing : List (String × TokenTree)}

/-- One field after the other. -/
theorem runs_document (version : String) (hc : IsDistinct (.group colors))
    (hs : IsDistinct (.group spacing)) {nesting : Nat}
    (hcolors : (TokenTree.group colors).height ≤ nesting)
    (hspacing : (TokenTree.group spacing).height ≤ nesting) :
    Runs (fieldMember [versionField, familyField .colors, familyField .spacing] nesting)
      ([], empty)
      [("version", .string version), ("colors", (TokenTree.group colors).toJson),
        ("spacing", (TokenTree.group spacing).toJson)]
      (["spacing", "colors", "version"], ⟨version, ⟨flatten colors, flatten spacing⟩⟩) := by
  refine @Runs.cons _ _ _ (["version"], ⟨version, Families.empty⟩) _ _ _ _ ?_ ?_
  · intro left
    exact fieldMember_gives versionField rfl (by decide) (versionField_gives nesting version left)
  refine @Runs.cons _ _ _ (["colors", "version"], ⟨version, ⟨flatten colors, .empty⟩⟩) _ _ _ _ ?_ ?_
  · intro left
    exact fieldMember_gives (familyField .colors) rfl (by decide)
      (familyField_gives .colors hc hcolors left)
  refine .cons ?_ .nil
  · intro left
    exact fieldMember_gives (familyField .spacing) rfl (by decide)
      (familyField_gives .spacing hs hspacing left)

/-- The families of a theme are its groups, flattened. -/
theorem ofJson_document (version : String) (hc : IsDistinct (.group colors))
    (hs : IsDistinct (.group spacing))
    (hcolors : (TokenTree.group colors).height < Json.nestingLimit)
    (hspacing : (TokenTree.group spacing).height < Json.nestingLimit) :
    ofJson (String.ofList (document version colors spacing).compact) =
      .ok ⟨version, ⟨flatten colors, flatten spacing⟩⟩ := by
  have hruns := runs_document version hc hs (Nat.le_pred_of_lt hcolors)
    (Nat.le_pred_of_lt hspacing)
  have hrecord := record_gives hruns (by decide) []
  rw [List.append_nil] at hrecord
  rw [ofJson, String.toList_ofList]
  exact Json.read_eq_ok hrecord

end DesignTokens.Theme
