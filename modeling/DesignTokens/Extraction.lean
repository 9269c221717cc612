import DesignTokens.Options
import DesignTokens.Script.Document
import DesignTokens.TokenTree
import DesignTokens.Declared

/-! # The tokens that a configuration declares -/
namespace DesignTokens
open Script (Expr Member Fault)
open Text (Span)

mutual

/-- The known part of an expression as nested tokens. -/
def TokenTree.ofExpr? : Expr → Option TokenTree
  | .string _ value => some (.leaf value)
  | .template _ value => some (.leaf value)
  | .number _ value => some (.leaf value.numeral)
  | .object _ members => some (.group (TokenTree.entriesOf [] members))
  | .array .. => none
  | .dynamic .. => none

/-- The entries that the members of an object add to those of the members before them. Spreads,
computed keys and unknown values add none. -/
def TokenTree.entriesOf (entries : List (String × TokenTree)) :
    List Member → List (String × TokenTree)
  | [] => entries
  | .pair (some key) value :: rest =>
    match TokenTree.ofExpr? value with
    | some tree => TokenTree.entriesOf (OrderedMap.put key tree entries) rest
    | none => TokenTree.entriesOf entries rest
  | .pair none _ :: rest => TokenTree.entriesOf entries rest
  | .spread _ :: rest => TokenTree.entriesOf entries rest

end

/-- A property that declares the tokens of a family. -/
structure Declaration where
  origin : Origin
  family : Family
  value : Expr

/-- A theme that holds an object inside too many others. -/
structure DepthFault where
  /-- The names of the properties around the object, from the root of the script. -/
  path : List String
  limit : Nat
  span : Span
  deriving Repr, DecidableEq

/-- Stands for a computed key among the names around a property. -/
def computedKey : String := "[computed]"

/-- The only places at which tokens are declared. -/
def Origin.ofPath? : List String → Option Origin
  | ["theme"] => some .override
  | ["theme", "extend"] => some .extend
  | _ => none

/-- The declaration that a property makes below the names around it. -/
def Declaration.ofPair? (path : List String) (key : String) (value : Expr) :
    Option Declaration := do
  return ⟨← Origin.ofPath? path, ← Family.ofName? key, value⟩

/-- The number of objects around the value of a property inside a theme. The value of a root
property `theme` begins one, and outside of it nothing is counted. -/
def depthBelow (depth : Option Nat) (path : List String) : Option Nat :=
  match depth with
  | some depth => some depth
  | none => if path = ["theme"] then some 0 else none

namespace Declaration

mutual

/-- The declarations below an expression in their order. `path` names the properties around it,
and `depth` counts the objects around it inside a theme. -/
def collect (limit : Nat) (path : List String) (depth : Option Nat) :
    Expr → Except DepthFault (List Declaration)
  | .object span members =>
    if depth.any fun depth => limit ≤ depth then .error ⟨path, limit, span⟩
    else collectMembers limit path (depth.map (· + 1)) members
  | .array _ items => collectAll limit path depth items
  | .dynamic _ found => collectAll limit path depth found
  | .string .. => .ok []
  | .template .. => .ok []
  | .number .. => .ok []

def collectMembers (limit : Nat) (path : List String) (depth : Option Nat) :
    List Member → Except DepthFault (List Declaration)
  | [] => .ok []
  | .pair key? value :: rest =>
    let key := key?.getD computedKey
    let inner := path ++ [key]
    match collect limit inner (depthBelow depth inner) value with
    | .error fault => .error fault
    | .ok inside =>
      match collectMembers limit path depth rest with
      | .error fault => .error fault
      | .ok others => .ok ((ofPair? path key value).toList ++ inside ++ others)
  | .spread value :: rest =>
    match collect limit path depth value with
    | .error fault => .error fault
    | .ok inside =>
      match collectMembers limit path depth rest with
      | .error fault => .error fault
      | .ok others => .ok (inside ++ others)

def collectAll (limit : Nat) (path : List String) (depth : Option Nat) :
    List Expr → Except DepthFault (List Declaration)
  | [] => .ok []
  | expr :: rest =>
    match collect limit path depth expr with
    | .error fault => .error fault
    | .ok inside =>
      match collectAll limit path depth rest with
      | .error fault => .error fault
      | .ok others => .ok (inside ++ others)

end

/-- The tokens of a declaration whose value is an object literal. -/
def tokens? (d : Declaration) : Option TokenMap :=
  match TokenTree.ofExpr? d.value with
  | some (.group entries) => some (TokenTree.flatten entries)
  | _ => none

/-- Lays the tokens of a declaration over those declared before it. -/
def apply (declared : Declared) (d : Declaration) : Declared :=
  match d.tokens? with
  | some tokens => declared.overlay d.origin d.family tokens
  | none => declared

end Declaration

/-- What keeps tokens from being extracted. -/
inductive ExtractionFault
  | script (fault : Fault)
  | depth (fault : DepthFault)
  deriving Repr, DecidableEq

namespace Declared

/-- The tokens that the object literals of a script declare. -/
def ofRoots (options : Options) (roots : List Expr) : Except DepthFault Declared :=
  (Declaration.collectAll options.maxDepth [] none roots).map fun declarations =>
    declarations.foldl Declaration.apply empty

/-- The tokens that a script declares. -/
def extract (source : String) (options : Options) : Except ExtractionFault Declared :=
  match Script.document source with
  | .error fault => .error (.script fault)
  | .ok roots => (ofRoots options roots).mapError .depth

end Declared
end DesignTokens
