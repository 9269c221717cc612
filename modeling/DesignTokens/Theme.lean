import DesignTokens.Declared
import DesignTokens.TokenTree

/-! # Themes of default tokens -/
namespace DesignTokens

/-- The tokens a project has when it declares none. -/
structure Theme where
  version : String
  tokens : Families
  deriving DecidableEq

namespace Theme

def empty : Theme := ⟨"", Families.empty⟩

def versionField : Json.Reader.Field Theme where
  name := "version"
  required := true
  read := fun nesting cs =>
    (Json.Reader.string nesting cs).mapValue fun version theme => { theme with version }

/-- The groups of a family, flattened. -/
def familyField (family : Family) : Json.Reader.Field Theme where
  name := family.name
  required := true
  read := fun nesting cs =>
    (Json.Reader.map TokenTree.shape nesting cs).mapValue fun groups theme =>
      { theme with tokens := theme.tokens.update family fun _ => TokenTree.flatten groups.entries }

def shape : Json.Reader.Shape Theme :=
  Json.Reader.record [versionField, familyField .colors, familyField .spacing] empty

def ofJson (text : String) : Except Json.Refusal Theme := Json.read shape text.toList

end Theme

namespace Declared

/-- The tokens of one family in effect: the overriding ones, or else those of the theme, with the
extending ones laid over them. -/
def resolveFamily (d : Declared) (theme : Theme) (family : Family) : TokenMap :=
  let overriding := d.override.get family
  (if overriding.isEmpty then theme.tokens.get family else overriding).overlay
    (d.extend.get family)

/-- The tokens in effect. -/
def resolve (d : Declared) (theme : Theme) : Families :=
  ⟨d.resolveFamily theme .colors, d.resolveFamily theme .spacing⟩

end Declared
end DesignTokens
