import DesignTokens.Json.Reader

/-! # Nested tokens and their flat names -/
namespace DesignTokens

/-- Token values grouped under keys, to any depth. A group holds each key once when it is built
with `OrderedMap.put`. -/
inductive TokenTree
  | leaf (value : String)
  | group (entries : List (String × TokenTree))
  deriving Repr, Inhabited

namespace TokenTree

/-- The key that stands for the bare name of the group around it. -/
def defaultKey : String := "DEFAULT"

/-- The flat name of a key inside the groups whose joined name is `parent`. -/
def flatKey (parent : Option String) (key : String) : String :=
  match parent with
  | none => key
  | some parent => if key = defaultKey then parent else parent ++ "-" ++ key

mutual

/-- Inserts the leaves of a tree into a map, from left to right. -/
def insertUnder (name : String) (tokens : TokenMap) : TokenTree → TokenMap
  | leaf value => tokens.insert name value
  | group entries => flattenInto (some name) tokens entries

def flattenInto (parent : Option String) (tokens : TokenMap) : List (String × TokenTree) → TokenMap
  | [] => tokens
  | (key, tree) :: rest => flattenInto parent (insertUnder (flatKey parent key) tokens tree) rest

end

/-- The flat tokens of a group: of two leaves with one name the later gives the value. -/
def flatten (entries : List (String × TokenTree)) : TokenMap := flattenInto none .empty entries

mutual

def toJson : TokenTree → Json.Value
  | leaf value => .string value
  | group entries => .object (entriesToJson entries)

def entriesToJson : List (String × TokenTree) → List (String × Json.Value)
  | [] => []
  | (key, tree) :: rest => (key, tree.toJson) :: entriesToJson rest

end

mutual

/-- A string is a leaf and an object a group; a key given again keeps its first place. -/
def ofJson? : Json.Value → Option TokenTree
  | .string value => some (leaf value)
  | .object members => (entriesOfJson? [] members).map group
  | _ => none

def entriesOfJson? (entries : List (String × TokenTree)) :
    List (String × Json.Value) → Option (List (String × TokenTree))
  | [] => some entries
  | (key, value) :: rest =>
    match ofJson? value with
    | some tree => entriesOfJson? (OrderedMap.put key tree entries) rest
    | none => none

end

/-- A tree inside a text. It is read as a whole before its shape is looked at. -/
def shape : Json.Reader.Shape TokenTree := fun nesting cs =>
  match Json.Reader.value .kept nesting cs with
  | .error refusal => .error refusal
  | .ok (value, rest) =>
    match ofJson? value with
    | some tree => .ok (tree, rest)
    | none => .error .wrongShape

end TokenTree
end DesignTokens
