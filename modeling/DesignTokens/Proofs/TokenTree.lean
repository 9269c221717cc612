import DesignTokens.Proofs.Json.RoundTrip
import DesignTokens.Proofs.Overlay
import DesignTokens.TokenTree

/-! # Trees of tokens with distinct keys

A tree whose groups hold each key once is read back from its JSON as it is. -/
namespace DesignTokens.TokenTree

mutual

/-- The number of groups that enclose one another in a tree. -/
def height : TokenTree → Nat
  | leaf _ => 0
  | group entries => heights entries + 1

def heights : List (String × TokenTree) → Nat
  | [] => 0
  | (_, tree) :: rest => max (height tree) (heights rest)

end

mutual

/-- Every group of a tree holds each of its keys once. -/
def IsDistinct : TokenTree → Prop
  | leaf _ => True
  | group entries => (entries.map Prod.fst).Nodup ∧ AreDistinct entries

def AreDistinct : List (String × TokenTree) → Prop
  | [] => True
  | (_, tree) :: rest => IsDistinct tree ∧ AreDistinct rest

end

@[simp] theorem height_group (entries : List (String × TokenTree)) :
    height (group entries) = heights entries + 1 := rfl

@[simp] theorem heights_nil : heights [] = 0 := rfl

@[simp] theorem heights_cons (key : String) (tree : TokenTree) (rest : List (String × TokenTree)) :
    heights ((key, tree) :: rest) = max (height tree) (heights rest) := rfl

@[simp] theorem isDistinct_leaf (value : String) : IsDistinct (leaf value) := by
  rw [IsDistinct]
  trivial

@[simp] theorem isDistinct_group (entries : List (String × TokenTree)) :
    IsDistinct (group entries) ↔ (entries.map Prod.fst).Nodup ∧ AreDistinct entries := by
  rw [IsDistinct]

@[simp] theorem areDistinct_nil : AreDistinct [] := by
  rw [AreDistinct]
  trivial

@[simp] theorem areDistinct_cons (key : String) (tree : TokenTree)
    (rest : List (String × TokenTree)) :
    AreDistinct ((key, tree) :: rest) ↔ IsDistinct tree ∧ AreDistinct rest := by
  rw [AreDistinct]

theorem areDistinct_iff {entries : List (String × TokenTree)} :
    AreDistinct entries ↔ ∀ e ∈ entries, IsDistinct e.2 := by
  induction entries with
  | nil => simp
  | cons e rest ih => rw [areDistinct_cons, ih, List.forall_mem_cons]

private theorem isDistinct_put {key : String} {tree : TokenTree}
    {entries : List (String × TokenTree)} (ht : IsDistinct tree) (h : IsDistinct (group entries)) :
    IsDistinct (group (OrderedMap.put key tree entries)) := by
  obtain ⟨hn, hd⟩ := (isDistinct_group entries).1 h
  refine (isDistinct_group _).2 ⟨OrderedMap.nodup_keys_put key tree hn, areDistinct_iff.2 ?_⟩
  intro e he
  rcases OrderedMap.eq_or_mem_of_mem_put he with rfl | he
  · exact ht
  · exact areDistinct_iff.1 hd e he

mutual

theorem ofJson?_toJson (tree : TokenTree) (h : IsDistinct tree) : ofJson? tree.toJson = some tree :=
  match tree with
  | leaf value => rfl
  | group entries => by
    obtain ⟨hn, hd⟩ := (isDistinct_group entries).1 h
    rw [toJson, ofJson?, entriesOfJson?_entriesToJson [] entries hn hd]
    rfl

theorem entriesOfJson?_entriesToJson (before entries : List (String × TokenTree))
    (hn : ((before ++ entries).map Prod.fst).Nodup) (hd : AreDistinct entries) :
    entriesOfJson? before (entriesToJson entries) = some (before ++ entries) :=
  match entries with
  | [] => by rw [entriesToJson, entriesOfJson?, List.append_nil]
  | (key, tree) :: rest => by
    obtain ⟨ht, hr⟩ := (areDistinct_cons key tree rest).1 hd
    rw [entriesToJson, entriesOfJson?, ofJson?_toJson tree ht]
    dsimp only
    rw [OrderedMap.put_of_not_mem (OrderedMap.not_mem_of_nodup_append_cons hn)]
    rw [List.append_cons] at hn
    rw [entriesOfJson?_entriesToJson _ rest hn hr, ← List.append_cons]

end

mutual

theorem isDistinct_of_ofJson? (v : Json.Value) {tree : TokenTree} (h : ofJson? v = some tree) :
    IsDistinct tree :=
  match v with
  | .string value => by
    cases h
    exact isDistinct_leaf value
  | .object members => by
    obtain ⟨entries, hentries, rfl⟩ := Option.map_eq_some_iff.1 h
    exact isDistinct_of_entriesOfJson? members (by simp) hentries
  | .null | .bool _ | .number _ | .array _ => by cases h

theorem isDistinct_of_entriesOfJson? (members : List (String × Json.Value))
    {before entries : List (String × TokenTree)} (hbefore : IsDistinct (group before))
    (h : entriesOfJson? before members = some entries) : IsDistinct (group entries) :=
  match members with
  | [] => by
    cases h
    exact hbefore
  | (key, v) :: rest => by
    rw [entriesOfJson?] at h
    split at h
    · rename_i tree htree
      exact isDistinct_of_entriesOfJson? rest
        (isDistinct_put (isDistinct_of_ofJson? v htree) hbefore) h
    · cases h

end

/-- The trees that are read from JSON are those with distinct keys. -/
theorem exists_ofJson?_iff (tree : TokenTree) : (∃ v, ofJson? v = some tree) ↔ IsDistinct tree :=
  ⟨fun ⟨v, h⟩ => isDistinct_of_ofJson? v h, fun h => ⟨tree.toJson, ofJson?_toJson tree h⟩⟩

section
open Json.Reader

mutual

/-- A tree is read back from its text, with what follows it left. -/
theorem value_gives (tree : TokenTree) {nesting : Nat} (h : height tree ≤ nesting)
    (left : List Char) :
    (value .kept nesting (tree.toJson.compact ++ left)).Gives tree.toJson left :=
  match tree, nesting with
  | leaf text, 0 => valueWith_string none text left
  | leaf text, nesting + 1 => valueWith_string (some (value .kept nesting)) text left
  | group entries, nesting + 1 => by
    have hruns := runs_entries entries (Nat.le_of_succ_le_succ h) []
    have hmembers := hruns.members left
    rw [toJson, Json.Value.compact, List.cons_append, List.append_assoc]
    exact valueWith_object hmembers

theorem runs_entries (entries : List (String × TokenTree)) {nesting : Nat}
    (h : heights entries ≤ nesting) (before : List (String × Json.Value)) :
    Runs (fun entries key cs =>
        (behindColon (value .kept nesting) cs).mapValue fun v => entries ++ [(key, v)])
      before (entriesToJson entries) (before ++ entriesToJson entries) :=
  match entries with
  | [] => by
    rw [entriesToJson, List.append_nil]
    exact .nil
  | (key, tree) :: rest => by
    obtain ⟨htree, hrest⟩ := Nat.max_le.1 h
    rw [entriesToJson, List.append_cons]
    refine .cons (fun left => ?_) (runs_entries rest hrest _)
    exact (behindColon_gives (value_gives tree htree left)).mapValue _

end

theorem shape_gives (tree : TokenTree) (hd : IsDistinct tree) {nesting : Nat}
    (h : height tree ≤ nesting) (left : List Char) :
    (shape nesting (tree.toJson.compact ++ left)).Gives tree left := by
  obtain ⟨rest, hvalue, hrest⟩ := value_gives tree h left
  refine ⟨rest, ?_, hrest⟩
  rw [shape, hvalue]
  dsimp only
  rw [ofJson?_toJson tree hd]

private theorem entriesToJson_eq_map (entries : List (String × TokenTree)) :
    entriesToJson entries = entries.map fun e => (e.1, e.2.toJson) := by
  induction entries with
  | nil => rfl
  | cons e rest ih => rw [entriesToJson, ih, List.map_cons]

theorem height_le_heights {entries : List (String × TokenTree)} {e : String × TokenTree}
    (h : e ∈ entries) : height e.2 ≤ heights entries := by
  induction entries with
  | nil => cases h
  | cons e' rest ih =>
    rw [heights_cons]
    rcases List.mem_cons.1 h with rfl | h
    · exact Nat.le_max_left _ _
    · exact Nat.le_trans (ih h) (Nat.le_max_right _ _)

/-- A group is read as a map with its entries. -/
theorem map_gives {entries : List (String × TokenTree)} (hd : IsDistinct (group entries))
    {nesting : Nat} (h : height (group entries) ≤ nesting) (left : List Char) :
    ∃ m : OrderedMap TokenTree, m.entries = entries ∧
      (map shape nesting ((group entries).toJson.compact ++ left)).Gives m left := by
  obtain ⟨hn, hinner⟩ := (isDistinct_group entries).1 hd
  match nesting with
  | nesting + 1 =>
    refine ⟨⟨entries, hn⟩, rfl, ?_⟩
    rw [toJson, entriesToJson_eq_map]
    refine Json.Reader.map_gives ⟨entries, hn⟩ (fun e he => ?_) left
    have hheight := Nat.le_trans (height_le_heights he) (Nat.le_of_succ_le_succ h)
    exact shape_gives e.2 (areDistinct_iff.1 hinner e he) hheight

end

end DesignTokens.TokenTree
