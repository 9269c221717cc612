import DesignTokens.Json.Reader

/-! # Declared tokens, split by family and by origin -/
namespace DesignTokens

inductive Family | colors | spacing
  deriving Repr, DecidableEq

namespace Family

def name : Family → String
  | colors => "colors"
  | spacing => "spacing"

def ofName? : String → Option Family
  | "colors" => some colors
  | "spacing" => some spacing
  | _ => none

end Family

/-- A declaration takes the place of the default tokens of its family, or extends them. -/
inductive Origin | override | extend
  deriving Repr, DecidableEq

/-- The tokens of both families. -/
structure Families where
  colors : TokenMap
  spacing : TokenMap
  deriving Inhabited, DecidableEq

namespace Families

def empty : Families := ⟨OrderedMap.empty, OrderedMap.empty⟩

def get (f : Families) : Family → TokenMap
  | .colors => f.colors
  | .spacing => f.spacing

def update (f : Families) (family : Family) (change : TokenMap → TokenMap) : Families :=
  match family with
  | .colors => { f with colors := change f.colors }
  | .spacing => { f with spacing := change f.spacing }

end Families

/-- The tokens that a configuration declares. -/
structure Declared where
  override : Families
  extend : Families
  deriving Inhabited, DecidableEq

namespace Declared

def empty : Declared := ⟨Families.empty, Families.empty⟩

def get (d : Declared) : Origin → Families
  | .override => d.override
  | .extend => d.extend

def update (d : Declared) (origin : Origin) (change : Families → Families) : Declared :=
  match origin with
  | .override => { d with override := change d.override }
  | .extend => { d with extend := change d.extend }

/-- Lays tokens over those already declared in one place. -/
def overlay (d : Declared) (origin : Origin) (family : Family) (tokens : TokenMap) : Declared :=
  d.update origin fun families => families.update family fun m => m.overlay tokens

/-- Lays everything that `other` declares over the tokens of the same place. -/
def overlayAll (d other : Declared) : Declared :=
  [Origin.override, .extend].foldl (fun d origin =>
    [Family.colors, .spacing].foldl (fun d family =>
      d.overlay origin family ((other.get origin).get family)) d) d

end Declared

def TokenMap.toJson (m : TokenMap) : Json.Value :=
  .object (m.entries.map fun (key, value) => (key, .string value))

def TokenMap.shape : Json.Reader.Shape TokenMap := Json.Reader.map Json.Reader.string

namespace Families

def toJson (f : Families) : Json.Value :=
  .object [("colors", TokenMap.toJson f.colors), ("spacing", TokenMap.toJson f.spacing)]

def field (family : Family) : Json.Reader.Field Families where
  name := family.name
  required := false
  read := fun nesting cs =>
    (TokenMap.shape nesting cs).mapValue fun m families => families.update family fun _ => m

/-- Both families may be left out. -/
def shape : Json.Reader.Shape Families :=
  Json.Reader.record [field .colors, field .spacing] empty

end Families

namespace Declared

def toJson (d : Declared) : Json.Value :=
  .object [("override", d.override.toJson), ("extend", d.extend.toJson)]

def field (name : String) (origin : Origin) : Json.Reader.Field Declared where
  name := name
  required := false
  read := fun nesting cs =>
    (Families.shape nesting cs).mapValue fun families declared =>
      declared.update origin fun _ => families

def shape : Json.Reader.Shape Declared :=
  Json.Reader.record [field "override" .override, field "extend" .extend] empty

def ofJson (text : String) : Except Json.Refusal Declared := Json.read shape text.toList

end Declared
end DesignTokens
