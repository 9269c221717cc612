import DesignTokens.Proofs.IndexedMap
import DesignTokens.TokenTree

/-! # Flat names of nested tokens

The flat names of a group are the joined paths of its leaves, each where the first leaf of that name
stands and with the value of the last one. -/
namespace DesignTokens

namespace OrderedMap
variable {α : Type}

private theorem lookup_reverse (pairs : List (String × α)) (key : String) :
    pairs.reverse.lookup key = (pairs.filter (·.1 = key)).getLast?.map Prod.snd := by
  induction pairs using List.reverseRecOn with
  | nil => rfl
  | append_singleton pairs pair ih =>
    rw [List.reverse_append, List.reverse_singleton, List.singleton_append, List.lookup_cons, ih,
      List.filter_append]
    by_cases hk : pair.1 = key
    · simp [hk]
    · simp [hk, beq_false_of_ne (Ne.symm hk)]

private theorem insertAll_append (m : OrderedMap α) (xs ys : List (String × α)) :
    m.insertAll (xs ++ ys) = (m.insertAll xs).insertAll ys :=
  List.foldl_append

end OrderedMap

namespace TokenTree

mutual

/-- The leaves of a tree with their flat names, from left to right. -/
def leavesUnder (name : String) : TokenTree → List (String × String)
  | leaf value => [(name, value)]
  | group entries => leavesOf (some name) entries

def leavesOf (parent : Option String) : List (String × TokenTree) → List (String × String)
  | [] => []
  | (key, tree) :: rest => leavesUnder (flatKey parent key) tree ++ leavesOf parent rest

end

mutual

/-- The map that is handed through the groups takes in their leaves one after the other. -/
theorem insertUnder_eq (name : String) (tokens : TokenMap) (tree : TokenTree) :
    insertUnder name tokens tree = tokens.insertAll (leavesUnder name tree) :=
  match tree with
  | leaf _ => rfl
  | group entries => flattenInto_eq (some name) tokens entries

theorem flattenInto_eq (parent : Option String) (tokens : TokenMap)
    (entries : List (String × TokenTree)) :
    flattenInto parent tokens entries = tokens.insertAll (leavesOf parent entries) :=
  match entries with
  | [] => rfl
  | (key, tree) :: rest => by
    rw [flattenInto, leavesOf, insertUnder_eq (flatKey parent key) tokens tree,
      flattenInto_eq parent _ rest, OrderedMap.insertAll_append]

end

theorem flatten_eq_ofList (entries : List (String × TokenTree)) :
    flatten entries = .ofList (leavesOf none entries) :=
  flattenInto_eq none .empty entries

/-- A leaf behind the keys that lead to it, the outermost first. -/
structure Leaf where
  path : List String
  value : String
  deriving Repr, DecidableEq

/-- The leaf seen from the group around. -/
def Leaf.under (key : String) (l : Leaf) : Leaf := { l with path := key :: l.path }

mutual

/-- The leaves of a tree as a walk from left to right meets them, each group before what is behind
it. -/
def leaves : TokenTree → List Leaf
  | leaf value => [⟨[], value⟩]
  | group entries => leavesIn entries

def leavesIn : List (String × TokenTree) → List Leaf
  | [] => []
  | (key, tree) :: rest => (leaves tree).map (Leaf.under key) ++ leavesIn rest

end

/-- The keys of a path with a dash between each two of them. The default key adds nothing below the
outermost group. -/
def joinedPath : List String → String
  | [] => ""
  | key :: keys => "-".intercalate (key :: keys.filter (· ≠ defaultKey))

def Leaf.name (l : Leaf) : String := joinedPath l.path

/-- The flat name of a path inside the groups whose joined name is `parent`. -/
def nameWithin (parent : Option String) : List String → String
  | [] => parent.getD ""
  | key :: keys => nameWithin (some (flatKey parent key)) keys

private theorem nameWithin_some (parent : String) (keys : List String) :
    nameWithin (some parent) keys = "-".intercalate (parent :: keys.filter (· ≠ defaultKey)) := by
  induction keys generalizing parent with
  | nil => rfl
  | cons key keys ih =>
    rw [nameWithin, ih, flatKey]
    by_cases hkey : key = defaultKey
    · rw [if_pos hkey, List.filter_cons_of_neg (by simpa using hkey)]
    · rw [if_neg hkey, List.filter_cons_of_pos (by simpa using hkey)]
      rfl

private theorem nameWithin_none (path : List String) : nameWithin none path = joinedPath path := by
  cases path with
  | nil => rfl
  | cons key keys => exact nameWithin_some key keys

mutual

/-- Names are joined on the way to a leaf as they are from its whole path. -/
theorem leavesUnder_eq (name : String) (tree : TokenTree) :
    leavesUnder name tree =
      (leaves tree).map fun l => (nameWithin (some name) l.path, l.value) :=
  match tree with
  | leaf _ => rfl
  | group entries => leavesOf_eq (some name) entries

theorem leavesOf_eq (parent : Option String) (entries : List (String × TokenTree)) :
    leavesOf parent entries =
      (leavesIn entries).map fun l => (nameWithin parent l.path, l.value) :=
  match entries with
  | [] => rfl
  | (key, tree) :: rest => by
    rw [leavesOf, leavesIn, leavesUnder_eq (flatKey parent key) tree, leavesOf_eq parent rest,
      List.map_append, List.map_map]
    rfl

end

/-- Flattening inserts the leaves in the order of the walk. -/
theorem flatten_eq (entries : List (String × TokenTree)) :
    flatten entries = .ofList ((leavesIn entries).map fun l => (l.name, l.value)) := by
  rw [flatten_eq_ofList, leavesOf_eq]
  simp only [nameWithin_none]
  rfl

/-- The group whose members are the tokens of a flat map. -/
def ofFlat (m : TokenMap) : List (String × TokenTree) := m.entries.map fun e => (e.1, leaf e.2)

private theorem leavesOf_map_leaf (entries : List (String × String)) :
    leavesOf none (entries.map fun e => (e.1, leaf e.2)) = entries := by
  induction entries with
  | nil => rfl
  | cons e rest ih =>
    rw [List.map_cons, leavesOf, leavesUnder, ih]
    rfl

theorem flatten_ofFlat (m : TokenMap) : flatten (ofFlat m) = m := by
  rw [flatten_eq_ofList, ofFlat, leavesOf_map_leaf]
  exact OrderedMap.empty_overlay m

/-- The keys of a flattened group are the names of its leaves, in the order in which the walk first
meets them, and the value of a key is that of the last leaf with this name. A flat map is left as it
is, so that flattening a second time changes nothing. -/
theorem flatten_lastLeaf (entries : List (String × TokenTree)) :
    (flatten entries).keys = ((leavesIn entries).map Leaf.name).eraseDups ∧
    (∀ key, (flatten entries).get? key =
      ((leavesIn entries).filter (·.name = key)).getLast?.map Leaf.value) ∧
    (∀ m : TokenMap, flatten (ofFlat m) = m) ∧
    flatten (ofFlat (flatten entries)) = flatten entries := by
  refine ⟨?_, fun key => ?_, flatten_ofFlat, flatten_ofFlat _⟩
  · rw [flatten_eq, OrderedMap.keys_ofList, List.map_map]
    rfl
  · rw [flatten_eq, OrderedMap.get?_ofList, OrderedMap.lookup_reverse, List.filter_map,
      List.getLast?_map, Option.map_map]
    rfl

/-- Groups side by side and inside one another whose leaves share two names. -/
example : (flatten
    [("a", .group [("DEFAULT", .group [("b", .leaf "1")]), ("", .leaf "2")]), ("a-b", .leaf "3"),
      ("DEFAULT", .group [("DEFAULT", .leaf "4")]), ("a", .leaf "5"),
      ("a-", .group [("DEFAULT", .leaf "6")])]).entries =
    [("a-b", "3"), ("a-", "6"), ("DEFAULT", "4"), ("a", "5")] := by decide

end TokenTree
end DesignTokens
