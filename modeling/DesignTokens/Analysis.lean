import DesignTokens.Diagnostic
import DesignTokens.Theme.Standard
import DesignTokens.Validation
import DesignTokens.Yaml.Writer

/-! # The analysis of a configuration -/
namespace DesignTokens

/-- The tokens that a configuration declares and the ones in effect. -/
structure Analysis where
  /-- Where the configuration was read from, if it was a file. -/
  configPath : Option String
  declared : Declared
  resolved : Families
  deriving DecidableEq

namespace Analysis

/-- The analysis of a script that goes by the name of `file`. -/
def ofSource (source file : String) (options : Options) : Except ConfigError Analysis :=
  match Declared.extract source options with
  | .error fault => .error (.faulty file fault)
  | .ok declared => .ok ⟨none, declared, declared.resolve Theme.standard⟩

def validator (a : Analysis) (options : Options) : Validator :=
  Validator.ofOptions a.resolved options

def toJson (a : Analysis) : Json.Value :=
  .object
    ((a.configPath.map fun path => ("config_path", Json.Value.string path)).toList
      ++ [("extracted", a.declared.toJson), ("resolved", a.resolved.toJson)])

def toPrettyJson (a : Analysis) : String := String.ofList (a.toJson.pretty 0)

def treeOfMap (m : TokenMap) : Yaml.Tree :=
  .mapping (m.entries.map fun (key, value) => (key, .text value))

def treeOfFamilies (f : Families) : Yaml.Tree :=
  .mapping [("colors", treeOfMap f.colors), ("spacing", treeOfMap f.spacing)]

def toYamlTree (a : Analysis) : Yaml.Tree :=
  .mapping
    ((a.configPath.map fun path => ("config_path", Yaml.Tree.text path)).toList
      ++ [("extracted",
            .mapping
              [("override", treeOfFamilies a.declared.override),
               ("extend", treeOfFamilies a.declared.extend)]),
          ("resolved", treeOfFamilies a.resolved)])

def toYaml (a : Analysis) : String := String.ofList (Yaml.write a.toYamlTree)

end Analysis
end DesignTokens
