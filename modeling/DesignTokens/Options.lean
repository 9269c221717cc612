import DesignTokens.Json.Reader

/-! # Options of extraction and validation -/
namespace DesignTokens

structure Options where
  /-- The names under which a configuration is looked for, the preferred one first. -/
  configFiles : List String
  /-- The greatest number of suggestions for a class that is refused. -/
  maxSuggestions : Nat
  /-- Whether variants and the mark of importance are split off a class before it is checked. -/
  stripVariants : Bool
  /-- The greatest nesting of objects inside a theme. -/
  maxDepth : Nat
  deriving Repr, DecidableEq

namespace Options

def standard : Options where
  configFiles :=
    ["tailwind.config.js", "tailwind.config.ts", "tailwind.config.cjs", "tailwind.config.mjs"]
  maxSuggestions := 3
  stripVariants := true
  maxDepth := 32

instance : Inhabited Options := ⟨standard⟩

/-- A field that keeps its standard value when it is left out. -/
def field {α : Type} (name : String) (shape : Json.Reader.Shape α)
    (set : α → Options → Options) : Json.Reader.Field Options where
  name := name
  required := false
  read := fun nesting cs => (shape nesting cs).mapValue set

def shape : Json.Reader.Shape Options :=
  Json.Reader.record
    [field "config_files" (Json.Reader.list Json.Reader.string) fun v o =>
       { o with configFiles := v },
     field "max_suggestions" Json.Reader.natural fun v o => { o with maxSuggestions := v },
     field "strip_variants" Json.Reader.bool fun v o => { o with stripVariants := v },
     field "max_depth" Json.Reader.natural fun v o => { o with maxDepth := v }]
    standard

def ofJson (text : String) : Except Json.Refusal Options := Json.read shape text.toList

end Options
end DesignTokens
