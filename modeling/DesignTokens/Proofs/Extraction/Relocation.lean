import DesignTokens.Proofs.Extraction.Collection
import DesignTokens.Proofs.Script.Relocation

/-! # Extraction from a script that was moved

What a script declares does not depend on the places of its object literals. Only the report of an
object that is too deep holds a place. -/
namespace DesignTokens
open Script (Expr Member)
open Text (Span)

namespace TokenTree
variable (f : Nat → Nat)

mutual

theorem ofExpr?_relocate (e : Expr) : ofExpr? (e.relocate f) = ofExpr? e := by
  match e with
  | .string s value => rfl
  | .template s value => rfl
  | .number s value => rfl
  | .array s items => rfl
  | .dynamic s found => rfl
  | .object s members =>
    rw [Expr.relocate, ofExpr?, ofExpr?, Member.relocateAll_eq_map, entriesOf_relocate]

theorem entriesOf_relocate (entries : List (String × TokenTree)) (ms : List Member) :
    entriesOf entries (ms.map (Member.relocate f)) = entriesOf entries ms := by
  match ms with
  | [] => rfl
  | .spread value :: rest => exact entriesOf_relocate entries rest
  | .pair none value :: rest => exact entriesOf_relocate entries rest
  | .pair (some key) value :: rest =>
    rw [List.map_cons, Member.relocate, entriesOf, entriesOf, ofExpr?_relocate]
    cases ofExpr? value with
    | none => exact entriesOf_relocate entries rest
    | some tree => exact entriesOf_relocate _ rest

end

end TokenTree

def DepthFault.relocate (f : Nat → Nat) (fault : DepthFault) : DepthFault :=
  { fault with span := Script.Span.relocate f fault.span }

namespace Declaration

def relocate (f : Nat → Nat) (d : Declaration) : Declaration :=
  { d with value := d.value.relocate f }

private theorem tokens?_relocate (f : Nat → Nat) (d : Declaration) :
    (d.relocate f).tokens? = d.tokens? := by
  rw [tokens?, tokens?, relocate, TokenTree.ofExpr?_relocate]

private theorem apply_relocate (f : Nat → Nat) (declared : Declared) (d : Declaration) :
    apply declared (d.relocate f) = apply declared d := by
  rw [apply, apply, tokens?_relocate]
  rfl

private theorem ofPair?_relocate (f : Nat → Nat) (path : List String) (key : String)
    (value : Expr) :
    ofPair? path key (value.relocate f) = (ofPair? path key value).map (relocate f) := by
  rw [ofPair?, ofPair?]
  cases Origin.ofPath? path with
  | none => rfl
  | some origin => cases Family.ofName? key <;> rfl

/-- Declarations, or the object that is too deep, with their offsets moved. -/
def relocateResult (f : Nat → Nat) (r : Except DepthFault (List Declaration)) :
    Except DepthFault (List Declaration) :=
  (r.map (List.map (relocate f))).mapError (DepthFault.relocate f)

section
variable (f : Nat → Nat) (limit : Nat)

mutual

theorem collect_relocate (path : List String) (depth : Option Nat) (e : Expr) :
    collect limit path depth (e.relocate f) = relocateResult f (collect limit path depth e) := by
  match e with
  | .string s value => rfl
  | .template s value => rfl
  | .number s value => rfl
  | .array s items =>
    rw [Expr.relocate, Expr.relocateAll_eq_map, collect, collect, collectAll_relocate]
  | .dynamic s found =>
    rw [Expr.relocate, Expr.relocateAll_eq_map, collect, collect, collectAll_relocate]
  | .object s members =>
    rw [Expr.relocate, Member.relocateAll_eq_map, collect, collect, collectMembers_relocate]
    split <;> rfl

theorem collectMembers_relocate (path : List String) (depth : Option Nat) (ms : List Member) :
    collectMembers limit path depth (ms.map (Member.relocate f)) =
      relocateResult f (collectMembers limit path depth ms) := by
  match ms with
  | [] => rfl
  | .pair key? value :: rest =>
    have hvalue := collect_relocate (path ++ [key?.getD computedKey])
      (depthBelow depth (path ++ [key?.getD computedKey])) value
    have hrest := collectMembers_relocate path depth rest
    rw [List.map_cons, Member.relocate, collectMembers, collectMembers, hvalue, hrest,
      ofPair?_relocate]
    cases collect limit (path ++ [key?.getD computedKey])
      (depthBelow depth (path ++ [key?.getD computedKey])) value with
    | error fault => rfl
    | ok inside =>
      cases collectMembers limit path depth rest with
      | error fault => rfl
      | ok others =>
        simp [relocateResult, Except.map, Except.mapError, Option.toList_map]
  | .spread value :: rest =>
    rw [List.map_cons, Member.relocate, collectMembers, collectMembers, collect_relocate,
      collectMembers_relocate]
    cases collect limit path depth value with
    | error fault => rfl
    | ok inside =>
      cases collectMembers limit path depth rest with
      | error fault => rfl
      | ok others => simp [relocateResult, Except.map, Except.mapError]

theorem collectAll_relocate (path : List String) (depth : Option Nat) (es : List Expr) :
    collectAll limit path depth (es.map (Expr.relocate f)) =
      relocateResult f (collectAll limit path depth es) := by
  match es with
  | [] => rfl
  | expr :: rest =>
    rw [List.map_cons, collectAll, collectAll, collect_relocate, collectAll_relocate]
    cases collect limit path depth expr with
    | error fault => rfl
    | ok inside =>
      cases collectAll limit path depth rest with
      | error fault => rfl
      | ok others => simp [relocateResult, Except.map, Except.mapError]

end

end

private theorem foldl_apply_relocate (f : Nat → Nat) (declared : Declared) (ds : List Declaration) :
    (ds.map (relocate f)).foldl apply declared = ds.foldl apply declared := by
  induction ds generalizing declared with
  | nil => rfl
  | cons d ds ih => rw [List.map_cons, List.foldl_cons, List.foldl_cons, apply_relocate, ih]

end Declaration

namespace Declared

theorem ofRoots_relocate (options : Options) (f : Nat → Nat) (roots : List Expr) :
    ofRoots options (roots.map (Expr.relocate f)) =
      (ofRoots options roots).mapError (DepthFault.relocate f) := by
  rw [ofRoots, ofRoots, Declaration.collectAll_relocate]
  cases Declaration.collectAll options.maxDepth [] none roots with
  | error fault => rfl
  | ok ds => exact congrArg Except.ok (Declaration.foldl_apply_relocate f empty ds)

end Declared
end DesignTokens
