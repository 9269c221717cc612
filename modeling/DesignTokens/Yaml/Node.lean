import DesignTokens.OrderedMap
import DesignTokens.Yaml.TokenStream

/-! # The nodes of a YAML document -/
namespace DesignTokens.Yaml

/-- A part of a document. An anchor gives a node a number, and a reference stands for a node with
its number. -/
inductive Node
  | scalar (style : ScalarStyle) (tag : String) (text : String)
  | sequence (items : List Node)
  | mapping (entries : List (Node × Node))
  | anchored (number : Nat) (node : Node)
  | reference (number : Nat)
  deriving Repr, Inhabited

namespace Node

/-- A node that is left out. -/
def absent : Node := .scalar .plain "" ""

/-- The names of the anchors so far, each with the number that it stands for now. -/
abbrev Anchors := OrderedMap Nat

/-- The number that the next anchor gives: as many names as there are. An anchor with a known name
adds none, so the anchor behind it has the same number. -/
def Anchors.next (anchors : Anchors) : Nat := anchors.size

def Anchors.add (anchors : Anchors) : Option String → Anchors
  | some name => anchors.insert name anchors.next
  | none => anchors

/-- A node behind the anchors before it, and with its own if it has one. -/
def withAnchor (anchors : Anchors) (name? : Option String) (node : Node) : Node :=
  if name?.isSome then .anchored anchors.next node else node

/-- The beginnings of tags that the handles of a document stand for. -/
abbrev Handles := List (String × String)

def standardHandles : Handles := [("!", "!"), ("!!", "tag:yaml.org,2002:")]

/-- What is known and left over behind a node. -/
abbrev Left := Anchors × List Token

/-- The anchor and the tag in front of a node, in either order. -/
def properties (handles : Handles) (ts : List Token) :
    Option (Option String × Option String × List Token) :=
  let full (handle suffix : String) : Option String :=
    if handle = "" then some suffix else (handles.lookup handle).map (· ++ suffix)
  match ts with
  | .anchor name :: .tag handle suffix :: ts =>
    (full handle suffix).map fun tag => (some name, some tag, ts)
  | .tag handle suffix :: .anchor name :: ts =>
    (full handle suffix).map fun tag => (some name, some tag, ts)
  | .anchor name :: ts => some (some name, none, ts)
  | .tag handle suffix :: ts => (full handle suffix).map fun tag => (none, some tag, ts)
  | ts => some (none, none, ts)

/-- Whether no node comes in front of the next token. -/
def startsNone (ends : List Token) (ts : List Token) : Bool := ts.head?.all ends.contains

def blockEnds : List Token := [.key, .value, .blockEnd]

mutual

/-- The node at the front. In block style a collection may be in block style too, and a sequence
that is the value of a key need not be indented. -/
def read (handles : Handles) :
    (fuel : Nat) → (inBlock unindented : Bool) → Anchors → List Token → Option (Node × Left)
  | 0, _, _, _, _ => none
  | fuel + 1, inBlock, unindented, anchors, ts =>
    match ts with
    | .reference name :: ts =>
      (anchors.get? name).map fun number => (.reference number, anchors, ts)
    | ts => do
      let (anchor?, tag?, ts) ← properties handles ts
      let inner := anchors.add anchor?
      let (node, outer, ts) ←
        match ts with
        | .blockEntry :: _ =>
          if unindented then
            (unindentedItems handles fuel inner ts).map fun (items, rest) => (.sequence items, rest)
          else if anchor?.isSome || tag?.isSome then some (absent, inner, ts)
          else none
        | .scalar style text :: ts => some (.scalar style (tag?.getD "") text, inner, ts)
        | .flowSequenceStart :: ts =>
          (flowItems handles fuel true inner ts).map fun (items, rest) => (.sequence items, rest)
        | .flowMappingStart :: ts =>
          (flowEntries handles fuel true inner ts).map fun (es, rest) => (.mapping es, rest)
        | t :: rest =>
          if inBlock && t = .blockSequenceStart then
            (blockItems handles fuel inner rest).map fun (items, rest) => (.sequence items, rest)
          else if inBlock && t = .blockMappingStart then
            (blockEntries handles fuel inner rest).map fun (es, rest) => (.mapping es, rest)
          else if anchor?.isSome || tag?.isSome then
            some (.scalar .plain (tag?.getD "") "", inner, ts)
          else none
        | [] =>
          if anchor?.isSome || tag?.isSome then some (.scalar .plain (tag?.getD "") "", inner, ts)
          else none
      return (withAnchor anchors anchor? node, outer, ts)

/-- A node, or an absent one in front of one of the tokens that end a part. -/
def readPart (handles : Handles) :
    (fuel : Nat) → (ends : List Token) → (inBlock unindented : Bool) → Anchors → List Token →
      Option (Node × Left)
  | 0, _, _, _, _, _ => none
  | fuel + 1, ends, inBlock, unindented, anchors, ts =>
    if startsNone ends ts then some (absent, anchors, ts)
    else read handles fuel inBlock unindented anchors ts

def blockItems (handles : Handles) : (fuel : Nat) → Anchors → List Token → Option (List Node × Left)
  | 0, _, _ => none
  | fuel + 1, anchors, ts =>
    match ts with
    | .blockEntry :: ts => do
      let (item, anchors, ts) ←
        readPart handles fuel [.blockEntry, .blockEnd] true false anchors ts
      let (items, rest) ← blockItems handles fuel anchors ts
      return (item :: items, rest)
    | .blockEnd :: ts => some ([], anchors, ts)
    | _ => none

def unindentedItems (handles : Handles) :
    (fuel : Nat) → Anchors → List Token → Option (List Node × Left)
  | 0, _, _ => none
  | fuel + 1, anchors, ts =>
    match ts with
    | .blockEntry :: ts => do
      let (item, anchors, ts) ←
        readPart handles fuel (.blockEntry :: blockEnds) true false anchors ts
      let (items, rest) ← unindentedItems handles fuel anchors ts
      return (item :: items, rest)
    | ts => some ([], anchors, ts)

def blockEntries (handles : Handles) :
    (fuel : Nat) → Anchors → List Token → Option (List (Node × Node) × Left)
  | 0, _, _ => none
  | fuel + 1, anchors, ts =>
    match ts with
    | .key :: ts => do
      let (key, anchors, ts) ← readPart handles fuel blockEnds true true anchors ts
      let (value, anchors, ts) ←
        match ts with
        | .value :: ts => readPart handles fuel blockEnds true true anchors ts
        | ts => some (absent, anchors, ts)
      let (entries, rest) ← blockEntries handles fuel anchors ts
      return ((key, value) :: entries, rest)
    | .blockEnd :: ts => some ([], anchors, ts)
    | _ => none

/-- A value in flow style behind its key. -/
def flowValue (handles : Handles) :
    (fuel : Nat) → (closing : Token) → Anchors → List Token → Option (Node × Left)
  | 0, _, _, _ => none
  | fuel + 1, closing, anchors, ts =>
    match ts with
    | .value :: ts => readPart handles fuel [.flowEntry, closing] false false anchors ts
    | ts => some (absent, anchors, ts)

/-- The announced key of an item. One that is absent takes up the token that it is in front of. -/
def flowItemKey (handles : Handles) :
    (fuel : Nat) → Anchors → List Token → Option (Node × Left)
  | 0, _, _ => none
  | fuel + 1, anchors, ts =>
    if startsNone [.value, .flowEntry, .flowSequenceEnd] ts then
      some (absent, anchors, ts.drop 1)
    else read handles fuel false false anchors ts

/-- The items of a sequence in flow style; a key makes an item a mapping of one entry. -/
def flowItems (handles : Handles) :
    (fuel : Nat) → (first : Bool) → Anchors → List Token → Option (List Node × Left)
  | 0, _, _, _ => none
  | fuel + 1, first, anchors, ts =>
    match ts with
    | .flowSequenceEnd :: ts => some ([], anchors, ts)
    | ts => do
      let ts ←
        if first then some ts
        else
          match ts with
          | .flowEntry :: ts => some ts
          | _ => none
      match ts with
      | .flowSequenceEnd :: ts => some ([], anchors, ts)
      | .key :: ts => do
        let (key, anchors, ts) ← flowItemKey handles fuel anchors ts
        let (value, anchors, ts) ← flowValue handles fuel .flowSequenceEnd anchors ts
        let (items, rest) ← flowItems handles fuel false anchors ts
        return (.mapping [(key, value)] :: items, rest)
      | ts => do
        let (item, anchors, ts) ← read handles fuel false false anchors ts
        let (items, rest) ← flowItems handles fuel false anchors ts
        return (item :: items, rest)

/-- The entries of a mapping in flow style; a node without a key mark has an absent value. -/
def flowEntries (handles : Handles) :
    (fuel : Nat) → (first : Bool) → Anchors → List Token → Option (List (Node × Node) × Left)
  | 0, _, _, _ => none
  | fuel + 1, first, anchors, ts =>
    match ts with
    | .flowMappingEnd :: ts => some ([], anchors, ts)
    | ts => do
      let ts ←
        if first then some ts
        else
          match ts with
          | .flowEntry :: ts => some ts
          | _ => none
      match ts with
      | .flowMappingEnd :: ts => some ([], anchors, ts)
      | .key :: ts => do
        let (key, anchors, ts) ←
          readPart handles fuel [.value, .flowEntry, .flowMappingEnd] false false anchors ts
        let (value, anchors, ts) ← flowValue handles fuel .flowMappingEnd anchors ts
        let (entries, rest) ← flowEntries handles fuel false anchors ts
        return ((key, value) :: entries, rest)
      | ts => do
        let (key, anchors, ts) ← read handles fuel false false anchors ts
        let (entries, rest) ← flowEntries handles fuel false anchors ts
        return ((key, absent) :: entries, rest)

end

/-- The directives in front of a document: at most one version, of which only the two known ones
are read, and no handle twice. -/
def directives (versionSeen : Bool) (handles : Handles) : List Token → Option (Handles × List Token)
  | .version major minor :: ts =>
    if versionSeen || major ≠ 1 || (minor ≠ 1 && minor ≠ 2) then none
    else directives true handles ts
  | .tagDirective handle lead :: ts =>
    if (handles.lookup handle).isSome then none
    else directives versionSeen ((handle, lead) :: handles) ts
  | ts => some (handles, ts)

/-- Whether nothing but the end of a document is left. -/
def isEnd (ts : List Token) : Bool := ts.all (· = .documentEnd)

/-- The outermost node of a single document, which is absent where there is no document. -/
def ofTokens? (ts : List Token) : Option Node :=
  let fuel := 4 * ts.length + 16
  match ts with
  | [] => some absent
  | t :: _ =>
    let isDirective :=
      match t with
      | .version .. => true
      | .tagDirective .. => true
      | _ => false
    if isDirective || t = .documentStart then do
      let (own, ts) ← directives false [] ts
      let handles := own ++ standardHandles
      match ts with
      | .documentStart :: ts =>
        if isEnd ts then some absent
        else do
          let (node, _, ts) ← read handles fuel true false .empty ts
          if isEnd ts then some node else none
      | _ => none
    else do
      let (node, _, ts) ← read standardHandles fuel true false .empty ts
      if isEnd ts then some node else none

end Node
end DesignTokens.Yaml
