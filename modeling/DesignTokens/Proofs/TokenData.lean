import DesignTokens.Declared
import DesignTokens.Proofs.IndexedMap
import DesignTokens.Proofs.TokenTree

/-! # Token data read from their texts

The compact text of token data is read back as the same data, with every key in its place. -/
namespace DesignTokens
open Json Json.Reader

/-- A map with an index is read as the map without one is. -/
theorem IndexedMap.shape_eq_map {α : Type} (entry : Shape α) (nesting : Nat) (cs : List Char) :
    IndexedMap.shape entry nesting cs = (map entry nesting cs).mapValue fun m => .ok (of m) := by
  let indexed (m : OrderedMap α) : Except OutOfBounds (IndexedMap α) := .ok (of m)
  refine visit_mapValue (g := indexed) (fun m key value => ?_) OrderedMap.empty entry nesting cs
  simp only [indexed, Except.bind, insert_of]
  rfl

theorem TokenMap.shape_gives (m : TokenMap) (nesting : Nat) (left : List Char) :
    (TokenMap.shape (nesting + 1) ((TokenMap.toJson m).compact ++ left)).Gives m left :=
  map_gives m (fun e _ => string_gives nesting e.2) left

namespace Families

theorem field_gives (family : Family) (m : TokenMap) (nesting : Nat) (left : List Char) :
    ((field family).read (nesting + 1) ((TokenMap.toJson m).compact ++ left)).Gives
      (fun families => families.update family fun _ => m) left :=
  (TokenMap.shape_gives m nesting left).mapValue fun m (families : Families) =>
    families.update family fun _ => m

theorem shape_gives (f : Families) (nesting : Nat) (left : List Char) :
    (shape (nesting + 2) (f.toJson.compact ++ left)).Gives f left := by
  have hruns : Runs (fieldMember [field .colors, field .spacing] (nesting + 1)) ([], empty)
      [("colors", TokenMap.toJson f.colors), ("spacing", TokenMap.toJson f.spacing)]
      (["spacing", "colors"], f) :=
    .cons (fun left => fieldMember_gives (field .colors) rfl (by decide)
        (field_gives .colors f.colors nesting left))
      (.cons (fun left => fieldMember_gives (field .spacing) rfl (by decide)
        (field_gives .spacing f.spacing nesting left)) .nil)
  exact record_gives hruns (by decide) left

end Families

namespace Declared

theorem field_gives (name : String) (origin : Origin) (f : Families) (nesting : Nat)
    (left : List Char) :
    ((field name origin).read (nesting + 2) (f.toJson.compact ++ left)).Gives
      (fun declared => declared.update origin fun _ => f) left :=
  (f.shape_gives nesting left).mapValue fun f (declared : Declared) =>
    declared.update origin fun _ => f

theorem shape_gives (d : Declared) (nesting : Nat) (left : List Char) :
    (shape (nesting + 3) (d.toJson.compact ++ left)).Gives d left := by
  have hruns : Runs (fieldMember [field "override" .override, field "extend" .extend] (nesting + 2))
      ([], empty) [("override", d.override.toJson), ("extend", d.extend.toJson)]
      (["extend", "override"], d) :=
    .cons (fun left => fieldMember_gives (field "override" .override) rfl (by decide)
        (field_gives "override" .override d.override nesting left))
      (.cons (fun left => fieldMember_gives (field "extend" .extend) rfl (by decide)
        (field_gives "extend" .extend d.extend nesting left)) .nil)
  exact record_gives hruns (by decide) left

end Declared

/-- Token maps, declared tokens and trees of tokens are read back from their compact texts, and a
map with an index gets the same index again. -/
theorem read_compact (m : TokenMap) (d : Declared) {t : TokenTree} (ht : t.IsDistinct)
    (hheight : t.height ≤ nestingLimit) :
    read TokenMap.shape (TokenMap.toJson m).compact = .ok m ∧
      read (IndexedMap.shape string) (TokenMap.toJson m).compact = .ok (.ok (IndexedMap.of m)) ∧
      Declared.ofJson (String.ofList d.toJson.compact) = .ok d ∧
      read TokenTree.shape t.toJson.compact = .ok t := by
  have hmap := TokenMap.shape_gives m 126 []
  have hdeclared := d.shape_gives 124 []
  have htree := t.shape_gives ht hheight []
  rw [List.append_nil] at hmap hdeclared htree
  refine ⟨read_eq_ok hmap, read_eq_ok ?_, ?_, read_eq_ok htree⟩
  · rw [IndexedMap.shape_eq_map]
    exact hmap.mapValue _
  · rw [Declared.ofJson, String.toList_ofList]
    exact read_eq_ok hdeclared

/-- Tokens with a key and values that have to be escaped. -/
def escapedTokens : TokenTree :=
  .group [("\"", .leaf "\n"), ("", .group [("DEFAULT", .leaf "\\é")])]

theorem read_compact_escapedTokens :
    escapedTokens.toJson.compact =
        "\x7b\"\\\"\":\"\\n\",\"\":\x7b\"DEFAULT\":\"\\\\é\"\x7d\x7d".toList ∧
      read TokenTree.shape escapedTokens.toJson.compact = .ok escapedTokens := by
  have hdistinct : escapedTokens.IsDistinct := by simp [escapedTokens]
  obtain ⟨-, -, -, hread⟩ := read_compact .empty .empty hdistinct (by decide)
  exact ⟨by decide, hread⟩

end DesignTokens
