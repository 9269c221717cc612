import DesignTokens.Yaml.Node

/-! # YAML documents and the data in them

A reference is looked up in the whole document: of the nodes with its number it stands for the one
that begins last, wherever the reference is. -/
namespace DesignTokens.Yaml

namespace Node

mutual

/-- The nodes with a number, in the order in which they begin. -/
def anchoredNodes : Node → List (Nat × Node)
  | scalar .. => []
  | sequence items => anchoredItems items
  | mapping entries => anchoredEntries entries
  | anchored number node => (number, node) :: anchoredNodes node
  | reference _ => []

def anchoredItems : List Node → List (Nat × Node)
  | [] => []
  | item :: items => anchoredNodes item ++ anchoredItems items

def anchoredEntries : List (Node × Node) → List (Nat × Node)
  | [] => []
  | (key, value) :: entries =>
    anchoredNodes key ++ anchoredNodes value ++ anchoredEntries entries

end

end Node

structure Document where
  root : Node
  deriving Repr

namespace Document

/-- The document of a text, if the text is well formed and holds no second one. -/
def ofText? (text : String) : Option Document :=
  ((tokens? text.toList).bind Node.ofTokens?).map Document.mk

def byNumber? (d : Document) (number : Nat) : Option Node :=
  d.root.anchoredNodes.reverse.lookup number

/-- What a node stands for, without its anchor. -/
def resolve? (d : Document) : Node → Option Node
  | .reference number => d.byNumber? number
  | .anchored _ node => some node
  | node => some node

def string? (d : Document) (n : Node) : Option String := do
  match ← d.resolve? n with
  | .scalar _ _ text => some text
  | _ => none

/-- The text of a scalar that is read as data of some kind: it is plain, or a literal block with
the tag of that kind. -/
def dataText? (d : Document) (tag : String) (n : Node) : Option String := do
  match ← d.resolve? n with
  | .scalar .plain _ text => some text
  | .scalar .literal t text => if t = tag then some text else none
  | _ => none

def natural? (d : Document) (n : Node) : Option Nat :=
  ((d.dataText? "tag:yaml.org,2002:int" n).bind Yaml.natural?).filter (· < UInt64.size)

def bool? (d : Document) (n : Node) : Option Bool :=
  (d.dataText? "tag:yaml.org,2002:bool" n).bind Yaml.bool?

/-- A sequence of strings; a plain scalar without text stands for the empty one. -/
def strings? (d : Document) (n : Node) : Option (List String) := do
  match ← d.resolve? n with
  | .sequence items => items.mapM d.string?
  | .scalar .plain _ "" => some []
  | _ => none

/-- The entries of a mapping; a plain scalar without text stands for the empty one. -/
def entries? (d : Document) (n : Node) : Option (List (Node × Node)) := do
  match ← d.resolve? n with
  | .mapping entries => some entries
  | .scalar .plain _ "" => some []
  | _ => none

end Document
end DesignTokens.Yaml
