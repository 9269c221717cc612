import DesignTokens.Proofs.Extraction.Relocation
import DesignTokens.Proofs.Script.TreeLiteral
import DesignTokens.Proofs.Theme

/-! # Extraction of a theme that is written as JSON

The trees of a theme are declared as they are, whatever their keys and their values. -/
namespace DesignTokens
open Script (Expr Member Nest Spells bare)
open TokenTree (height heights IsDistinct AreDistinct flatten)

namespace TokenTree

mutual

theorem ofExpr?_ofTree (tree : TokenTree) (h : IsDistinct tree) :
    ofExpr? (Expr.ofTree tree) = some tree :=
  match tree with
  | leaf value => rfl
  | group entries => by
    obtain ⟨hn, hd⟩ := (isDistinct_group entries).1 h
    rw [Expr.ofTree, ofExpr?, entriesOf_ofEntries [] entries hn hd]
    rfl

theorem entriesOf_ofEntries (before entries : List (String × TokenTree))
    (hn : ((before ++ entries).map Prod.fst).Nodup) (hd : AreDistinct entries) :
    entriesOf before (Member.ofEntries entries) = before ++ entries :=
  match entries with
  | [] => by rw [Member.ofEntries, entriesOf, List.append_nil]
  | (key, tree) :: rest => by
    obtain ⟨ht, hr⟩ := (areDistinct_cons key tree rest).1 hd
    rw [Member.ofEntries, entriesOf, ofExpr?_ofTree tree ht]
    dsimp only
    rw [OrderedMap.put_of_not_mem (OrderedMap.not_mem_of_nodup_append_cons hn)]
    rw [List.append_cons] at hn
    rw [entriesOf_ofEntries _ rest hn hr, ← List.append_cons]

end

end TokenTree

namespace Declaration
variable {limit : Nat}

/-- Below a path at which nothing is declared. -/
def IsBarren (path : List String) : Prop := ∀ names, Origin.ofPath? (path ++ names) = none

theorem IsBarren.append {path : List String} (h : IsBarren path) (name : String) :
    IsBarren (path ++ [name]) := by
  intro names
  rw [List.append_assoc]
  exact h _

mutual

theorem collect_ofTree (tree : TokenTree) (path : List String) (depth : Nat) (hp : IsBarren path)
    (h : depth + height tree ≤ limit) :
    collect limit path (some depth) (Expr.ofTree tree) = .ok [] :=
  match tree with
  | .leaf value => rfl
  | .group entries => by
    rw [TokenTree.height_group] at h
    apply collect_object_eq_ok_iff.2
    constructor
    · rintro n ⟨⟩
      omega
    · exact collectMembers_ofEntries entries path (depth + 1) hp (by omega)

theorem collectMembers_ofEntries (entries : List (String × TokenTree)) (path : List String)
    (depth : Nat) (hp : IsBarren path) (h : depth + heights entries ≤ limit) :
    collectMembers limit path (some depth) (Member.ofEntries entries) = .ok [] :=
  match entries with
  | [] => rfl
  | (key, tree) :: rest => by
    rw [TokenTree.heights_cons] at h
    have hnone : ofPair? path key (Expr.ofTree tree) = none := by
      have hpath := hp []
      rw [List.append_nil] at hpath
      rw [ofPair?, hpath]
      rfl
    refine collectMembers_pair_eq_ok_iff.2
      ⟨[], [], collect_ofTree tree _ depth (hp.append key) (by omega),
        collectMembers_ofEntries rest path depth hp (by omega), ?_⟩
    rw [Option.getD_some, hnone]
    rfl

end

/-- What the pairs of both families declare at one of the places for tokens. -/
theorem collectMembers_families {path : List String} {depth : Nat} {origin : Origin}
    {colors spacing : List (String × TokenTree)} {rest : List Member} {ds : List Declaration}
    (ho : Origin.ofPath? path = some origin)
    (hp : ∀ family : Family, IsBarren (path ++ [family.name]))
    (hc : depth + (TokenTree.group colors).height ≤ limit)
    (hs : depth + (TokenTree.group spacing).height ≤ limit)
    (hrest : collectMembers limit path (some depth) rest = .ok ds) :
    collectMembers limit path (some depth)
        (.pair (some "colors") (Expr.ofTree (.group colors)) ::
          .pair (some "spacing") (Expr.ofTree (.group spacing)) :: rest) =
      .ok (⟨origin, .colors, Expr.ofTree (.group colors)⟩ ::
        ⟨origin, .spacing, Expr.ofTree (.group spacing)⟩ :: ds) := by
  have hcolors : ofPair? path "colors" (Expr.ofTree (.group colors)) =
      some ⟨origin, .colors, Expr.ofTree (.group colors)⟩ := by
    rw [ofPair?, ho]
    rfl
  have hspacing : ofPair? path "spacing" (Expr.ofTree (.group spacing)) =
      some ⟨origin, .spacing, Expr.ofTree (.group spacing)⟩ := by
    rw [ofPair?, ho]
    rfl
  refine collectMembers_pair_eq_ok_iff.2
    ⟨[], _, collect_ofTree _ _ depth (hp .colors) hc, collectMembers_pair_eq_ok_iff.2
      ⟨[], _, collect_ofTree _ _ depth (hp .spacing) hs, hrest, rfl⟩, ?_⟩
  rw [Option.getD_some, Option.getD_some, hcolors, hspacing]
  rfl

end Declaration

/-- The groups of a theme, and those that extend it. -/
structure ThemeTrees where
  colors : List (String × TokenTree)
  spacing : List (String × TokenTree)
  moreColors : List (String × TokenTree)
  moreSpacing : List (String × TokenTree)

namespace ThemeTrees
variable (t : ThemeTrees)

/-- What a script holds under its property `theme`. -/
def tree : TokenTree :=
  .group [("colors", .group t.colors), ("spacing", .group t.spacing),
    ("extend", .group [("colors", .group t.moreColors), ("spacing", .group t.moreSpacing)])]

/-- The compact text of a group. -/
def groupText (entries : List (String × TokenTree)) : String :=
  String.ofList (TokenTree.group entries).toJson.compact

/-- A script that declares the groups. -/
def text : String :=
  "module.exports = \x7b \"theme\": \x7b \"colors\": " ++ groupText t.colors ++
    ", \"spacing\": " ++ groupText t.spacing ++
    ", \"extend\": \x7b \"colors\": " ++ groupText t.moreColors ++
    ", \"spacing\": " ++ groupText t.moreSpacing ++ " \x7d \x7d \x7d"

/-- Every key of a group is given once. -/
structure IsDistinct : Prop where
  colors : TokenTree.IsDistinct (.group t.colors)
  spacing : TokenTree.IsDistinct (.group t.spacing)
  moreColors : TokenTree.IsDistinct (.group t.moreColors)
  moreSpacing : TokenTree.IsDistinct (.group t.moreSpacing)

/-- The tokens of the script. -/
def nests : List Nest :=
  [.token (bare (.identifier "module")), .token (bare .dot), .token (bare (.identifier "exports")),
    .token (bare (.punct '=')), .ofTree (.group [("theme", t.tree)])]

private theorem spells_header : Spells "module.exports = ".toList
    [bare (.identifier "module"), bare .dot, bare (.identifier "exports"), bare (.punct '=')] := by
  have hassign : Spells ('=' :: ([] ++ ' ' :: [])) [bare (.punct '=')] :=
    .before (fun _ _ => rfl) rfl (.blank rfl .nil)
  have hexports : Spells ('e' :: ("xports".toList ++ ' ' :: '=' :: ' ' :: []))
      [bare (.identifier "exports"), bare (.punct '=')] :=
    .before (fun _ _ => rfl) rfl (.blank rfl hassign)
  have hdot : Spells ('.' :: ([] ++ "exports = ".toList))
      [bare .dot, bare (.identifier "exports"), bare (.punct '=')] :=
    .before (fun _ _ => rfl) rfl hexports
  have hmodule : Spells ('m' :: ("odule".toList ++ ".exports = ".toList))
      [bare (.identifier "module"), bare .dot, bare (.identifier "exports"), bare (.punct '=')] :=
    .before (fun _ _ => rfl) rfl hdot
  exact hmodule

theorem spells_groupText (entries : List (String × TokenTree)) :
    Spells (groupText entries).toList (Script.Nest.ofTree (.group entries)).tokens := by
  rw [groupText, String.toList_ofList]
  exact .tree (.group entries)

section
variable {cs : List Char} {ts : List Script.Token}

theorem spells_families (colors spacing : List (String × TokenTree)) (h : Spells cs ts) :
    Spells ("\x7b \"colors\": ".toList ++ ((groupText colors).toList ++
        (", \"spacing\": ".toList ++ ((groupText spacing).toList ++ cs))))
      (bare (.opener .brace) :: bare (.string "colors") :: bare .colon ::
        ((Nest.ofTree (.group colors)).tokens ++ bare .comma :: bare (.string "spacing") ::
          bare .colon :: ((Nest.ofTree (.group spacing)).tokens ++ ts))) :=
  .opening (.blank rfl (.entry "colors" (.blank rfl ((spells_groupText colors).append
    (.comma (.blank rfl (.entry "spacing" (.blank rfl ((spells_groupText spacing).append h)))))))))

private theorem spells_extend (h : Spells cs ts) : Spells (", \"extend\": ".toList ++ cs)
    (bare .comma :: bare (.string "extend") :: bare .colon :: ts) :=
  .comma (.blank rfl (.entry "extend" (.blank rfl h)))

private theorem spells_theme (h : Spells cs ts) : Spells ("\x7b \"theme\": ".toList ++ cs)
    (bare (.opener .brace) :: bare (.string "theme") :: bare .colon :: ts) :=
  .opening (.blank rfl (.entry "theme" (.blank rfl h)))

end

/-- The text, cut where its tokens are read. -/
theorem toList_text (a b c d : String) :
    ("module.exports = \x7b \"theme\": \x7b \"colors\": " ++ a ++ ", \"spacing\": " ++ b ++
      ", \"extend\": \x7b \"colors\": " ++ c ++ ", \"spacing\": " ++ d ++
      " \x7d \x7d \x7d").toList =
    "module.exports = ".toList ++ ("\x7b \"theme\": ".toList ++ ("\x7b \"colors\": ".toList ++
      (a.toList ++ (", \"spacing\": ".toList ++ (b.toList ++ (", \"extend\": ".toList ++
      ("\x7b \"colors\": ".toList ++ (c.toList ++ (", \"spacing\": ".toList ++ (d.toList ++
      " \x7d \x7d \x7d".toList)))))))))) := by
  have hopening : "module.exports = \x7b \"theme\": \x7b \"colors\": ".toList =
      "module.exports = ".toList ++ ("\x7b \"theme\": ".toList ++ "\x7b \"colors\": ".toList) := rfl
  have hmiddle : ", \"extend\": \x7b \"colors\": ".toList =
      ", \"extend\": ".toList ++ "\x7b \"colors\": ".toList := rfl
  simp only [String.toList_append, hopening, hmiddle, List.append_assoc]

theorem spells_text : Spells t.text.toList (Script.Nest.tokensOf t.nests) := by
  have hclose : Spells " \x7d \x7d \x7d".toList
      [bare (.closer .brace), bare (.closer .brace), bare (.closer .brace)] :=
    .blank rfl (.closing (.blank rfl (.closing (.blank rfl (.closing .nil)))))
  have hextend := spells_extend (spells_families t.moreColors t.moreSpacing hclose)
  have hall := spells_header.append (spells_theme (spells_families t.colors t.spacing hextend))
  rw [← toList_text] at hall
  simp only [nests, tree, Nest.ofTree, Nest.ofEntries, Nest.tokensOf_cons, Nest.tokens_token,
    Nest.tokens_group, Nest.tokensOf_nil, List.append_nil, List.append_assoc, List.cons_append,
    List.nil_append] at hall ⊢
  exact hall

/-- The object literal of the script. -/
def expr : Expr := Expr.ofTree (.group [("theme", t.tree)])

private theorem found_nests (h : t.tree.height ≤ Script.maxNesting) :
    Script.Reading.found 0 t.nests = .ok [t.expr] := by
  have htree : heights [("theme", t.tree)] ≤ Script.maxNesting := by
    rw [TokenTree.heights_cons, TokenTree.heights_nil, Nat.max_zero]
    exact h
  rw [nests, Script.Reading.found_cons, Script.Reading.found_token, Script.Reading.both_nil,
    Script.Reading.found_cons, Script.Reading.found_token, Script.Reading.both_nil,
    Script.Reading.found_cons, Script.Reading.found_token, Script.Reading.both_nil,
    Script.Reading.found_cons, Script.Reading.found_token, Script.Reading.both_nil,
    Script.Reading.found_ofTree _ htree, expr]

theorem areProper_nests : Nest.AreProper t.nests := by
  simp [nests, Nest.isProper_ofTree, bare, Script.TokenKind.isDelimiter]

theorem not_unterminated_nests :
    ∀ u ∈ Nest.tokensOf t.nests, ¬Script.TokenKind.IsUnterminated u.kind := by
  have htree := Nest.not_unterminated_ofTree (.group [("theme", t.tree)])
  simpa [nests, bare, Script.TokenKind.IsUnterminated] using htree

/-- The declarations of the script, in their order. -/
def declarations : List Declaration :=
  [⟨.override, .colors, Expr.ofTree (.group t.colors)⟩,
    ⟨.override, .spacing, Expr.ofTree (.group t.spacing)⟩,
    ⟨.extend, .colors, Expr.ofTree (.group t.moreColors)⟩,
    ⟨.extend, .spacing, Expr.ofTree (.group t.moreSpacing)⟩]

private theorem isBarren_family (family : Family) :
    Declaration.IsBarren (["theme"] ++ [family.name]) := by
  intro names
  cases family <;> cases names <;> rfl

private theorem isBarren_extend (family : Family) :
    Declaration.IsBarren (["theme", "extend"] ++ [family.name]) := by
  intro names
  cases names <;> rfl

theorem collectAll_expr {limit : Nat} (h : t.tree.height ≤ limit) :
    Declaration.collectAll limit [] none [t.expr] = .ok t.declarations := by
  simp only [tree, TokenTree.height_group, TokenTree.heights_cons, TokenTree.heights_nil] at h
  have hextend : Declaration.collect limit ["theme", "extend"] (some 1)
      (Expr.ofTree (.group [("colors", .group t.moreColors), ("spacing", .group t.moreSpacing)])) =
        .ok [⟨.extend, .colors, Expr.ofTree (.group t.moreColors)⟩,
          ⟨.extend, .spacing, Expr.ofTree (.group t.moreSpacing)⟩] := by
    apply Declaration.collect_object_eq_ok_iff.2
    constructor
    · rintro n ⟨⟩
      omega
    · exact Declaration.collectMembers_families rfl isBarren_extend (by simp; omega)
        (by simp; omega) rfl
  have htheme : Declaration.collect limit ["theme"] (some 0) (Expr.ofTree t.tree) =
      .ok t.declarations := by
    apply Declaration.collect_object_eq_ok_iff.2
    constructor
    · rintro n ⟨⟩
      omega
    · refine Declaration.collectMembers_families rfl isBarren_family (by simp; omega)
        (by simp; omega) ?_
      exact Declaration.collectMembers_pair_eq_ok_iff.2 ⟨_, [], hextend, rfl, rfl⟩
  have hroot : Declaration.collect limit [] none t.expr = .ok t.declarations := by
    refine Declaration.collect_object_eq_ok_iff.2 ⟨by simp, ?_⟩
    refine Declaration.collectMembers_pair_eq_ok_iff.2 ⟨_, [], htheme, rfl, ?_⟩
    rw [List.append_nil]
    rfl
  exact Declaration.collectAll_cons_eq_ok_iff.2 ⟨_, [], hroot, rfl, (List.append_nil _).symm⟩

/-- What the script declares. -/
def declared : Declared :=
  ⟨⟨flatten t.colors, flatten t.spacing⟩, ⟨flatten t.moreColors, flatten t.moreSpacing⟩⟩

theorem apply_ofTree {entries : List (String × TokenTree)}
    (h : TokenTree.IsDistinct (.group entries)) (d : Declared) (origin : Origin) (family : Family) :
    Declaration.apply d ⟨origin, family, Expr.ofTree (.group entries)⟩ =
      d.overlay origin family (flatten entries) := by
  rw [Declaration.apply, Declaration.tokens?, TokenTree.ofExpr?_ofTree _ h]

private theorem foldl_declarations (h : t.IsDistinct) :
    t.declarations.foldl Declaration.apply Declared.empty = t.declared := by
  simp only [declarations, List.foldl_cons, List.foldl_nil, apply_ofTree h.colors,
    apply_ofTree h.spacing, apply_ofTree h.moreColors, apply_ofTree h.moreSpacing]
  simp only [Declared.overlay, Declared.update, Families.update, Declared.empty, Families.empty,
    OrderedMap.empty_overlay]
  rfl

theorem extract_text (h : t.IsDistinct) {options : Options}
    (hdepth : t.tree.height ≤ options.maxDepth) (hnesting : t.tree.height ≤ Script.maxNesting) :
    Declared.extract t.text options = .ok t.declared := by
  obtain ⟨roots, hroots, hmoved⟩ := Script.document_of_bareFrom (t.spells_text.bareFrom_eq none)
    t.areProper_nests t.not_unterminated_nests (t.found_nests hnesting)
  have hbare : Declared.ofRoots options [t.expr] = .ok t.declared :=
    Declared.ofRoots_eq_ok_iff.2 ⟨_, t.collectAll_expr hdepth, t.foldl_declarations h⟩
  rw [← hmoved, Declared.ofRoots_relocate] at hbare
  refine Declared.extract_eq_ok_iff.2 ⟨roots, hroots, ?_⟩
  cases hr : Declared.ofRoots options roots with
  | error fault =>
    rw [hr] at hbare
    cases hbare
  | ok d =>
    rw [hr] at hbare
    exact hbare

/-- A script declares the trees that are written in it, flattened. Those in the place of the default
tokens are also what a theme has that holds them. -/
theorem declares_flattened (h : t.IsDistinct) {options : Options}
    (hdepth : t.tree.height ≤ options.maxDepth) (hnesting : t.tree.height ≤ Script.maxNesting) :
    ∃ d, Declared.extract t.text options = .ok d ∧
      d.override.colors = flatten t.colors ∧ d.override.spacing = flatten t.spacing ∧
      d.extend.colors = flatten t.moreColors ∧ d.extend.spacing = flatten t.moreSpacing ∧
      ((TokenTree.group t.colors).height < Json.nestingLimit →
        (TokenTree.group t.spacing).height < Json.nestingLimit → ∀ version, ∃ theme,
          Theme.ofJson (String.ofList (Theme.document version t.colors t.spacing).compact) =
            .ok theme ∧
          theme.tokens.colors = d.override.colors ∧ theme.tokens.spacing = d.override.spacing) := by
  refine ⟨_, t.extract_text h hdepth hnesting, rfl, rfl, rfl, rfl, ?_⟩
  intro hcolors hspacing version
  exact ⟨_, Theme.ofJson_document version h.colors h.spacing hcolors hspacing, rfl, rfl⟩

/-- Trees with keys and values that a script has to escape, or that mean something elsewhere. -/
def awkward : ThemeTrees where
  colors := [("DEFAULT", .leaf "\"\n"), ("theme", .group [("colors", .leaf "\\")])]
  spacing := []
  moreColors := [("a-b", .leaf "é"), ("a", .group [("b", .leaf "")])]
  moreSpacing := [("", .group [])]

theorem declares_flattened_awkward : ∃ d,
    Declared.extract awkward.text Options.standard = .ok d ∧
      d.override.colors.entries = [("DEFAULT", "\"\n"), ("theme-colors", "\\")] ∧
      d.extend.colors.entries = [("a-b", "")] ∧
      ∃ theme,
        Theme.ofJson (String.ofList (Theme.document "1" awkward.colors awkward.spacing).compact) =
          .ok theme ∧ theme.tokens.colors = d.override.colors := by
  have h : awkward.IsDistinct := by
    constructor <;> simp [awkward]
  obtain ⟨d, hd, hcolors, -, hmore, -, htheme⟩ := @declares_flattened awkward h
    Options.standard (by decide) (by decide)
  obtain ⟨theme, hread, hsame, -⟩ := htheme (by decide) (by decide) "1"
  refine ⟨d, hd, ?_, ?_, theme, hread, hsame⟩
  · rw [hcolors]
    decide
  · rw [hmore]
    decide

end ThemeTrees

end DesignTokens
