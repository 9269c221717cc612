import DesignTokens.Proofs.Script.Spelling
import DesignTokens.Proofs.TokenTree

/-! # Trees of tokens as object literals

The JSON text of a tree is a literal of a script, which is read as the same tree. -/
namespace DesignTokens.Script
open TokenTree (height heights IsDistinct AreDistinct)

mutual

/-- The literal of a tree, at no place. -/
def Nest.ofTree : TokenTree → Nest
  | .leaf value => .token (bare (.string value))
  | .group entries => .group .brace ⟨0, 0⟩ ⟨0, 0⟩ (Nest.ofEntries entries)

def Nest.ofEntries : List (String × TokenTree) → List Nest
  | [] => []
  | [(key, tree)] => [.token (bare (.string key)), .token (bare .colon), Nest.ofTree tree]
  | (key, tree) :: rest =>
    .token (bare (.string key)) :: .token (bare .colon) :: Nest.ofTree tree ::
      .token (bare .comma) :: Nest.ofEntries rest

end

mutual

/-- The expression of a tree, at no place. -/
def Expr.ofTree : TokenTree → Expr
  | .leaf value => .string ⟨0, 0⟩ value
  | .group entries => .object ⟨0, 0⟩ (Member.ofEntries entries)

def Member.ofEntries : List (String × TokenTree) → List Member
  | [] => []
  | (key, tree) :: rest => .pair (some key) (Expr.ofTree tree) :: Member.ofEntries rest

end

namespace Spells
variable {cs ds : List Char} {ts us : List Token}

theorem opening (h : Spells cs ts) : Spells ('\x7b' :: cs) (bare (.opener .brace) :: ts) :=
  single (fun _ _ => rfl) rfl h

theorem closing (h : Spells cs ts) : Spells ('\x7d' :: cs) (bare (.closer .brace) :: ts) :=
  single (fun _ _ => rfl) rfl h

theorem colon (h : Spells cs ts) : Spells (':' :: cs) (bare .colon :: ts) :=
  single (fun _ _ => rfl) rfl h

theorem comma (h : Spells cs ts) : Spells (',' :: cs) (bare .comma :: ts) :=
  single (fun _ _ => rfl) rfl h

theorem entry (key : String) (h : Spells cs ts) :
    Spells (Json.quoted key ++ ':' :: cs) (bare (.string key) :: bare .colon :: ts) :=
  (quoted key).append (colon h)

mutual

/-- The compact text of a tree. -/
theorem tree (t : TokenTree) : Spells t.toJson.compact (Nest.ofTree t).tokens :=
  match t with
  | .leaf value => quoted value
  | .group es => opening ((entries es).append (closing nil))

theorem entries (es : List (String × TokenTree)) :
    Spells (Json.Value.compactMembers (TokenTree.entriesToJson es))
      (Nest.tokensOf (Nest.ofEntries es)) :=
  match es with
  | [] => nil
  | [(key, t)] => by
    have h := entry key ((tree t).append nil)
    rw [List.append_nil] at h
    exact h
  | (key, t) :: (key', t') :: rest =>
    (entry key (tree t)).append (comma (entries ((key', t') :: rest)))

end

end Spells

namespace Nest

mutual

theorem isProper_ofTree (tree : TokenTree) : IsProper (ofTree tree) :=
  match tree with
  | .leaf value => (isProper_token _).2 rfl
  | .group entries => by
    rw [ofTree, isProper_group]
    exact areProper_ofEntries entries

theorem areProper_ofEntries (entries : List (String × TokenTree)) : AreProper (ofEntries entries) :=
  match entries with
  | [] => areProper_nil
  | [(key, tree)] => by
    simp [ofEntries, isProper_ofTree tree, bare, TokenKind.isDelimiter]
  | (key, tree) :: (key', tree') :: rest => by
    have hrest := areProper_ofEntries ((key', tree') :: rest)
    simp [ofEntries, isProper_ofTree tree, bare, TokenKind.isDelimiter] at hrest ⊢
    exact hrest

end

mutual

theorem not_unterminated_ofTree (tree : TokenTree) :
    ∀ t ∈ (ofTree tree).tokens, ¬TokenKind.IsUnterminated t.kind :=
  match tree with
  | .leaf value => by
    intro t ht
    obtain rfl := List.mem_singleton.1 ht
    rintro ⟨literal, hk⟩
    cases hk
  | .group entries => by
    have hentries := not_unterminated_ofEntries entries
    rw [ofTree, tokens_group]
    intro t ht
    simp only [List.mem_cons, List.mem_append, List.not_mem_nil, or_false] at ht
    rcases ht with rfl | ht | rfl
    · simp [TokenKind.IsUnterminated]
    · exact hentries t ht
    · simp [TokenKind.IsUnterminated]

theorem not_unterminated_ofEntries (entries : List (String × TokenTree)) :
    ∀ t ∈ tokensOf (ofEntries entries), ¬TokenKind.IsUnterminated t.kind :=
  match entries with
  | [] => by simp [ofEntries]
  | [(key, tree)] => by
    have htree := not_unterminated_ofTree tree
    simpa [ofEntries, bare, TokenKind.IsUnterminated] using htree
  | (key, tree) :: (key', tree') :: rest => by
    have htree := not_unterminated_ofTree tree
    have hrest := not_unterminated_ofEntries ((key', tree') :: rest)
    rw [ofEntries]
    · intro t ht
      simp only [tokensOf_cons, tokens_token, List.mem_append, List.mem_singleton] at ht
      rcases ht with rfl | rfl | ht | rfl | ht
      · simp [bare, TokenKind.IsUnterminated]
      · simp [bare, TokenKind.IsUnterminated]
      · exact htree t ht
      · simp [bare, TokenKind.IsUnterminated]
      · exact hrest t ht
    · simp

end

/-- The runs between the commas of the entries. -/
def entryRun (entry : String × TokenTree) : List Nest :=
  [.token (bare (.string entry.1)), .token (bare .colon), .ofTree entry.2]

theorem isKind_comma_of_mem_entryRun (entry : String × TokenTree) :
    ∀ n ∈ entryRun entry, n.isKind .comma = false := by
  obtain ⟨key, tree⟩ := entry
  have htree : (ofTree tree).isKind .comma = false := by
    cases tree with
    | leaf value => rfl
    | group entries => rw [ofTree]; rfl
  intro n hn
  simp only [entryRun, List.mem_cons, List.not_mem_nil, or_false] at hn
  rcases hn with rfl | rfl | rfl
  · rfl
  · rfl
  · exact htree

private theorem slices_ofEntries (entry : String × TokenTree) (rest : List (String × TokenTree)) :
    slices (ofEntries (entry :: rest)) = (entry :: rest).map entryRun := by
  induction rest generalizing entry with
  | nil => exact slices_eq_singleton (isKind_comma_of_mem_entryRun entry)
  | cons next rest ih =>
    have h := slices_append_comma (isKind_comma_of_mem_entryRun entry) ⟨0, 0⟩
      (ofEntries (next :: rest))
    rw [ih next] at h
    exact h

theorem memberRuns_ofEntries (entries : List (String × TokenTree)) :
    dropEmptyLast (slices (ofEntries entries)) = entries.map entryRun := by
  cases entries with
  | nil => rfl
  | cons entry rest =>
    rw [slices_ofEntries, dropEmptyLast_of_nonempty]
    intro hlast
    obtain ⟨e, -, he⟩ := List.mem_map.1 (List.mem_of_getLast? hlast)
    cases he

end Nest

namespace Reading

mutual

theorem literal_ofTree (tree : TokenTree) (depth : Nat) (h : depth + height tree ≤ maxNesting) :
    literal depth (Nest.ofTree tree) = .ok (Expr.ofTree tree) :=
  match tree with
  | .leaf value => literal_token depth (bare (.string value))
  | .group entries => by
    rw [TokenTree.height_group] at h
    have hd : depth + 1 ≤ maxNesting := by omega
    have hm := members_ofEntries entries (depth + 1) (by omega)
    rw [Nest.ofTree, literal, object_of_le hd, Nest.memberRuns_ofEntries, hm]
    rfl

theorem members_ofEntries (entries : List (String × TokenTree)) (depth : Nat)
    (h : depth + heights entries ≤ maxNesting) :
    members depth (entries.map Nest.entryRun) = .ok (Member.ofEntries entries) :=
  match entries with
  | [] => members_nil depth
  | (key, tree) :: rest => by
    rw [TokenTree.heights_cons] at h
    have hvalue := literal_ofTree tree depth (by omega)
    have hrest := members_ofEntries rest depth (by omega)
    have hmember : member depth (Nest.entryRun (key, tree)) =
        .ok (.pair (some key) (Expr.ofTree tree)) := by
      rw [Nest.entryRun, member_pair rfl rfl rfl, value, hvalue]
      rfl
    rw [List.map_cons, members_cons, hmember, hrest]
    rfl

end

/-- The literal of a group is found where it stands. -/
theorem found_ofTree (entries : List (String × TokenTree)) (h : heights entries ≤ maxNesting) :
    found 0 [Nest.ofTree (.group entries)] = .ok [Expr.ofTree (.group entries)] := by
  have hm := members_ofEntries entries 0 (by omega)
  rw [Nest.ofTree, found_group, if_pos rfl, object_of_le (Nat.zero_le _),
    Nest.memberRuns_ofEntries, hm]
  rfl

end Reading

end DesignTokens.Script
