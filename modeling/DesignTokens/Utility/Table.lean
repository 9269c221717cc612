/-! # Utility classes and the families they belong to -/
namespace DesignTokens.Utility

inductive Category | colors | spacing | layout | typography | decoration
  deriving Repr, DecidableEq

namespace Category

def name : Category → String
  | colors => "colors"
  | spacing => "spacing"
  | layout => "layout"
  | typography => "typography"
  | decoration => "decoration"

def ofName? (name : String) : Option Category :=
  [colors, spacing, layout, typography, decoration].find? (·.name = name)

end Category

/-- A name of a table. One that ends in a hyphen is a stem: it stands for every class that begins
with it, and any other name only for itself. -/
structure Entry where
  category : Category
  name : String
  deriving Repr, DecidableEq

namespace Entry

def isStem (e : Entry) : Bool := e.name.toList.getLast? = some '-'

def fits (e : Entry) (utility : List Char) : Bool :=
  if e.isStem then e.name.toList.isPrefixOf utility else utility = e.name.toList

/-- What follows a stem; a name that is none is followed by nothing. -/
def remainder (e : Entry) (utility : List Char) : List Char :=
  if e.isStem then utility.drop e.name.toList.length else []

end Entry

/-- The names that are known, in the order of registration. -/
structure Table where
  entries : List Entry
  deriving Repr, DecidableEq

namespace Table

def ofGroups (groups : List (Category × List String)) : Table :=
  ⟨groups.flatMap fun (category, names) => names.map fun name => ⟨category, name⟩⟩

/-- Of two entries the one with the longer name, and the first at equal lengths. -/
def longer (best : Option Entry) (e : Entry) : Option Entry :=
  match best with
  | none => some e
  | some current =>
    if current.name.utf8ByteSize < e.name.utf8ByteSize then some e else some current

/-- The first of the longest entries that fit a class. -/
def find? (t : Table) (utility : List Char) : Option Entry :=
  (t.entries.filter (·.fits utility)).foldl longer none

end Table

/-- The number of characters up to the last colon outside square brackets. -/
def colonLength (openBrackets : Nat) : List Char → Nat
  | [] => 0
  | c :: cs =>
    let inside :=
      if c = '[' then openBrackets + 1 else if c = ']' then openBrackets - 1 else openBrackets
    match colonLength inside cs with
    | 0 => if c = ':' ∧ openBrackets = 0 then 1 else 0
    | n + 1 => n + 2

/-- A class cut into its variants, with a mark of importance, and the utility it applies. -/
structure Variants where
  lead : List Char
  utility : List Char
  deriving Repr, DecidableEq

namespace Variants

def split (text : List Char) : Variants :=
  let length := colonLength 0 text
  match text.drop length with
  | '!' :: utility => ⟨text.take (length + 1), utility⟩
  | utility => ⟨text.take length, utility⟩

/-- The whole text as a utility. -/
def whole (text : List Char) : Variants := ⟨[], text⟩

end Variants
end DesignTokens.Utility
