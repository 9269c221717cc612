import DesignTokens.Extraction

/-! # Collecting declarations

One equivalence for each way in which declarations are collected; nothing else about the walk is
needed to say what it finds. -/
namespace DesignTokens
open Script (Expr Member)
open Text (Span)

namespace Declaration

/-- Two results that are put together are both there. -/
private theorem joined_eq_ok_iff {first second : Except DepthFault (List Declaration)}
    {join : List Declaration → List Declaration → List Declaration} {ds : List Declaration} :
    (match first with
      | .error fault => .error fault
      | .ok inside =>
        match second with
        | .error fault => .error fault
        | .ok others => .ok (join inside others)) =
          (.ok ds : Except DepthFault (List Declaration)) ↔
      ∃ inside others, first = .ok inside ∧ second = .ok others ∧ ds = join inside others := by
  cases first with
  | error fault => simp
  | ok inside =>
    cases second with
    | error fault => simp
    | ok others => simp [eq_comm]

variable {limit : Nat} {path : List String} {depth : Option Nat} {ds : List Declaration}

/-- An object inside a theme lies in fewer than `limit` others. -/
theorem collect_object_eq_ok_iff {span : Span} {members : List Member} :
    collect limit path depth (.object span members) = .ok ds ↔
      (∀ n, depth = some n → n < limit) ∧
        collectMembers limit path (depth.map (· + 1)) members = .ok ds := by
  rw [collect]
  cases depth with
  | none => simp
  | some n =>
    by_cases hn : limit ≤ n
    · simp [hn, Nat.not_lt_of_le hn]
    · simp [hn, Nat.lt_of_not_le hn]

theorem collectMembers_pair_eq_ok_iff {key? : Option String} {value : Expr} {rest : List Member} :
    collectMembers limit path depth (.pair key? value :: rest) = .ok ds ↔
      ∃ inside others,
        collect limit (path ++ [key?.getD computedKey])
          (depthBelow depth (path ++ [key?.getD computedKey])) value = .ok inside ∧
        collectMembers limit path depth rest = .ok others ∧
        ds = (ofPair? path (key?.getD computedKey) value).toList ++ inside ++ others := by
  rw [collectMembers]
  exact joined_eq_ok_iff

theorem collectMembers_spread_eq_ok_iff {value : Expr} {rest : List Member} :
    collectMembers limit path depth (.spread value :: rest) = .ok ds ↔
      ∃ inside others, collect limit path depth value = .ok inside ∧
        collectMembers limit path depth rest = .ok others ∧ ds = inside ++ others := by
  rw [collectMembers]
  exact joined_eq_ok_iff

theorem collectAll_cons_eq_ok_iff {expr : Expr} {rest : List Expr} :
    collectAll limit path depth (expr :: rest) = .ok ds ↔
      ∃ inside others, collect limit path depth expr = .ok inside ∧
        collectAll limit path depth rest = .ok others ∧ ds = inside ++ others := by
  rw [collectAll]
  exact joined_eq_ok_iff

theorem collectAll_append {xs ys : List Expr} {ds' : List Declaration}
    (h : collectAll limit path depth xs = .ok ds) (h' : collectAll limit path depth ys = .ok ds') :
    collectAll limit path depth (xs ++ ys) = .ok (ds ++ ds') := by
  induction xs generalizing ds with
  | nil =>
    cases h
    exact h'
  | cons x xs ih =>
    obtain ⟨inside, others, hinside, hothers, rfl⟩ := collectAll_cons_eq_ok_iff.1 h
    rw [List.append_assoc]
    exact collectAll_cons_eq_ok_iff.2 ⟨inside, others ++ ds', hinside, ih hothers, rfl⟩

end Declaration

namespace Declared
variable {options : Options}

theorem ofRoots_eq_ok_iff {roots : List Expr} {d : Declared} :
    ofRoots options roots = .ok d ↔
      ∃ ds, Declaration.collectAll options.maxDepth [] none roots = .ok ds ∧
        ds.foldl Declaration.apply empty = d := by
  rw [ofRoots]
  cases Declaration.collectAll options.maxDepth [] none roots with
  | error fault => simp [Except.map]
  | ok ds => simp [Except.map]

theorem extract_eq_ok_iff {source : String} {d : Declared} :
    extract source options = .ok d ↔
      ∃ roots, Script.document source = .ok roots ∧ ofRoots options roots = .ok d := by
  rw [extract]
  cases Script.document source with
  | error fault => simp
  | ok roots =>
    dsimp only
    constructor
    · intro h
      cases hd : ofRoots options roots with
      | error fault =>
        rw [hd] at h
        cases h
      | ok d' =>
        rw [hd] at h
        cases h
        exact ⟨roots, rfl, hd⟩
    · rintro ⟨roots', hroots, hd⟩
      cases hroots
      rw [hd]
      rfl

end Declared
end DesignTokens
