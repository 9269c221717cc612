import DesignTokens.Json.Reader
import Std.Data.ExtHashMap

/-! # Ordered maps with an index

The entries stand in the order in which their keys were first inserted, and a hash map leads from
every key to the slot of its entry. -/
namespace DesignTokens

/-- An array of entries, and the slots of their keys. Nothing makes the two agree here. -/
structure IndexedMap (α : Type) where
  entries : Array (String × α)
  index : Std.ExtHashMap String Nat
  deriving DecidableEq

/-- The slot that was asked for holds no entry. -/
structure OutOfBounds where
  slot : Nat
  deriving Repr, DecidableEq

namespace IndexedMap
variable {α : Type}

def empty : IndexedMap α := ⟨#[], ∅⟩

/-- A known key keeps its slot and takes the new value, and a new one goes to the end. What comes
with the map is the value that was there before. -/
def insert (m : IndexedMap α) (key : String) (value : α) :
    Except OutOfBounds (Option α × IndexedMap α) :=
  match m.index[key]? with
  | some slot =>
    if h : slot < m.entries.size then
      .ok (some m.entries[slot].2,
        { m with entries := m.entries.set slot (m.entries[slot].1, value) })
    else .error ⟨slot⟩
  | none => .ok (none, ⟨m.entries.push (key, value), m.index.insert key m.entries.size⟩)

def get? (m : IndexedMap α) (key : String) : Except OutOfBounds (Option α) :=
  match m.index[key]? with
  | some slot => if h : slot < m.entries.size then .ok (some m.entries[slot].2) else .error ⟨slot⟩
  | none => .ok none

def contains (m : IndexedMap α) (key : String) : Bool := m.index.contains key

def keys (m : IndexedMap α) : List String := m.entries.toList.map Prod.fst

def size (m : IndexedMap α) : Nat := m.entries.size

def isEmpty (m : IndexedMap α) : Bool := m.entries.isEmpty

/-- Every pair is inserted in turn. -/
def insertAll (m : IndexedMap α) (pairs : List (String × α)) :
    Except OutOfBounds (IndexedMap α) :=
  pairs.foldlM (fun m pair => (m.insert pair.1 pair.2).map Prod.snd) m

def ofList (pairs : List (String × α)) : Except OutOfBounds (IndexedMap α) := empty.insertAll pairs

/-- The entries of `other` are inserted over those of `m`. -/
def overlay (m other : IndexedMap α) : Except OutOfBounds (IndexedMap α) :=
  m.insertAll other.entries.toList

/-- Every member is inserted when it is read. -/
def shape (entry : Json.Reader.Shape α) : Json.Reader.Shape (Except OutOfBounds (IndexedMap α)) :=
  Json.Reader.visit (.ok empty)
    (fun result key value => result.bind fun m => (m.insert key value).map Prod.snd) entry

end IndexedMap
end DesignTokens
