import DesignTokens.Options
import DesignTokens.Yaml.Document

/-! # Options in YAML -/
namespace DesignTokens.Options

open Yaml (Document Node)

/-- The options with one more field read. A key that is no field is passed over. -/
def withEntry (options : Options) (d : Document) (key : String) (value : Node) : Option Options :=
  match key with
  | "config_files" => (d.strings? value).map fun v => { options with configFiles := v }
  | "max_suggestions" => (d.natural? value).map fun v => { options with maxSuggestions := v }
  | "strip_variants" => (d.bool? value).map fun v => { options with stripVariants := v }
  | "max_depth" => (d.natural? value).map fun v => { options with maxDepth := v }
  | _ => some options

def fieldNames : List String := ["config_files", "max_suggestions", "strip_variants", "max_depth"]

/-- The options with the fields of a mapping, none of which is given twice. -/
def withEntries (options : Options) (d : Document) (given : List String) :
    List (Node × Node) → Option Options
  | [] => some options
  | (key, value) :: rest => do
    let name ← d.string? key
    if name ∈ given then none
    let options ← options.withEntry d name value
    withEntries options d (if name ∈ fieldNames then name :: given else given) rest

/-- The options of a text; one without a document leaves the standard ones. -/
def ofYaml? (text : String) : Option Options := do
  let d ← Document.ofText? text
  standard.withEntries d [] (← d.entries? d.root)

end DesignTokens.Options
