import DesignTokens.Proofs.Extraction.Relocation
import DesignTokens.Proofs.Overlay
import DesignTokens.Proofs.Script.Joining

/-! # Extraction from scripts one after the other

The declarations of a second script are laid over those of the first one. -/
namespace DesignTokens
open Script (Expr)

/-- The tokens of a declaration, if it declares those of one family in one place. -/
def Declaration.tokensFor? (origin : Origin) (family : Family) (d : Declaration) :
    Option TokenMap :=
  if d.origin = origin ∧ d.family = family then d.tokens? else none

namespace Declared

private theorem get_overlay (d : Declared) (origin origin' : Origin) (family family' : Family)
    (tokens : TokenMap) :
    ((d.overlay origin family tokens).get origin').get family' =
      if origin = origin' ∧ family = family' then ((d.get origin').get family').overlay tokens
      else (d.get origin').get family' := by
  cases origin <;> cases origin' <;> cases family <;> cases family' <;> rfl

theorem get_empty (origin : Origin) (family : Family) :
    (empty.get origin).get family = OrderedMap.empty := by
  cases origin <;> cases family <;> rfl

private theorem get_apply (d : Declared) (decl : Declaration) (origin : Origin) (family : Family) :
    ((Declaration.apply d decl).get origin).get family =
      match decl.tokensFor? origin family with
      | some tokens => ((d.get origin).get family).overlay tokens
      | none => (d.get origin).get family := by
  rw [Declaration.apply, Declaration.tokensFor?]
  cases decl.tokens? with
  | none => simp
  | some tokens =>
    dsimp only
    rw [get_overlay]
    split <;> rfl

theorem get_foldl_apply (ds : List Declaration) (d : Declared) (origin : Origin)
    (family : Family) :
    ((ds.foldl Declaration.apply d).get origin).get family =
      (ds.filterMap (Declaration.tokensFor? origin family)).foldl OrderedMap.overlay
        ((d.get origin).get family) := by
  induction ds generalizing d with
  | nil => rfl
  | cons decl ds ih =>
    rw [List.foldl_cons, ih, get_apply, List.filterMap_cons]
    cases decl.tokensFor? origin family <;> rfl

/-- What declarations give is laid over what there was before them. -/
theorem foldl_apply (ds : List Declaration) (d : Declared) (origin : Origin) (family : Family) :
    ((ds.foldl Declaration.apply d).get origin).get family =
      ((d.get origin).get family).overlay
        (((ds.foldl Declaration.apply empty).get origin).get family) := by
  rw [get_foldl_apply, get_foldl_apply, get_empty]
  exact OrderedMap.foldl_overlay _ _

variable {options : Options}

/-- What later object literals declare is laid over what the earlier ones do. -/
theorem ofRoots_append {roots roots' : List Expr} {d d' : Declared}
    (h : ofRoots options roots = .ok d) (h' : ofRoots options roots' = .ok d') :
    ∃ joined, ofRoots options (roots ++ roots') = .ok joined ∧ ∀ origin family,
      (joined.get origin).get family =
        ((d.get origin).get family).overlay ((d'.get origin).get family) := by
  obtain ⟨ds, hds, rfl⟩ := ofRoots_eq_ok_iff.1 h
  obtain ⟨ds', hds', rfl⟩ := ofRoots_eq_ok_iff.1 h'
  refine ⟨_, ofRoots_eq_ok_iff.2 ⟨_, Declaration.collectAll_append hds hds', rfl⟩, ?_⟩
  intro origin family
  rw [List.foldl_append, foldl_apply ds']

/-- Of two scripts with a semicolon on a line between them the second one is laid over the first:
the tokens of the first one keep their order and stand in front, and a token of both has the value
of the second. -/
theorem extract_join {first second : String} {d d' : Declared}
    (h : extract first options = .ok d) (h' : extract second options = .ok d') :
    ∃ joined, extract (first ++ "\n;\n" ++ second) options = .ok joined ∧
      ∀ origin family,
        let before := (d.get origin).get family
        let after := (d'.get origin).get family
        let both := (joined.get origin).get family
        both = before.overlay after ∧
          both.keys = before.keys ++ after.keys.filter (fun k => k ∉ before.keys) ∧
          ∀ k, both.get? k = (after.get? k).or (before.get? k) := by
  obtain ⟨roots, hroots, hd⟩ := extract_eq_ok_iff.1 h
  obtain ⟨roots', hroots', hd'⟩ := extract_eq_ok_iff.1 h'
  have hmoved : ofRoots options (roots'.map (Expr.relocate (Script.secondStart first + ·))) =
      .ok d' := by
    rw [ofRoots_relocate, hd']
    rfl
  obtain ⟨joined, hjoined, hmaps⟩ := ofRoots_append hd hmoved
  have hdocument := Script.document_join hroots hroots'
  rw [Script.separator] at hdocument
  refine ⟨joined, extract_eq_ok_iff.2 ⟨_, hdocument, hjoined⟩, ?_⟩
  intro origin family before after both
  have hboth : both = before.overlay after := hmaps origin family
  refine ⟨hboth, ?_, ?_⟩
  · rw [hboth, OrderedMap.keys_overlay]
  · intro k
    rw [hboth, OrderedMap.get?_overlay]

theorem extract_join_repeated : ∃ joined,
    extract ("(\x7btheme: \x7bcolors: \x7ba: '1', b: '2'\x7d\x7d\x7d)" ++ "\n;\n" ++
      "(\x7btheme: \x7bcolors: \x7bc: '3', a: '4'\x7d\x7d\x7d)")
      Options.standard = .ok joined ∧
      joined.override.colors.keys = ["a", "b", "c"] ∧
      joined.override.colors.get? "a" = some "4" := by
  have hfirst : extract "(\x7btheme: \x7bcolors: \x7ba: '1', b: '2'\x7d\x7d\x7d)" Options.standard =
      .ok (empty.overlay .override .colors (.ofList [("a", "1"), ("b", "2")])) := by
    decide +kernel
  have hsecond : extract "(\x7btheme: \x7bcolors: \x7bc: '3', a: '4'\x7d\x7d\x7d)" Options.standard =
      .ok (empty.overlay .override .colors (.ofList [("c", "3"), ("a", "4")])) := by
    decide +kernel
  obtain ⟨joined, hjoined, hmaps⟩ := extract_join hfirst hsecond
  obtain ⟨-, hkeys, hvalues⟩ := hmaps .override .colors
  exact ⟨joined, hjoined, hkeys.trans (by decide), (hvalues "a").trans (by decide)⟩

end Declared
end DesignTokens
