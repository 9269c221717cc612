import DesignTokens.Yaml.Token

/-! # The tokens of a YAML text

A key is known as one only at the colon behind it, so the place of each token that may be a key is
kept until then. -/
namespace DesignTokens.Yaml

/-- A place at which the token of a key may have to be put in. -/
structure PossibleKey where
  /-- Whether there can be nothing else at this place. -/
  required : Bool
  /-- The number of tokens in front of it. -/
  tokenCount : Nat
  line : Nat
  column : Nat
  index : Nat
  deriving Repr

/-- What is read of a text, and the collections that are open there. -/
structure Scan where
  cursor : Cursor
  tokens : List Token
  /-- The column of the innermost collection in block style, or `-1`. -/
  indent : Int
  outerIndents : List Int
  keyAllowed : Bool
  /-- The key that may stand in the innermost collection. -/
  key : Option PossibleKey
  /-- The same for each collection around one in flow style. -/
  outerKeys : List (Option PossibleKey)

namespace Scan

def start (text : List Char) : Scan := ⟨Cursor.start text, [], -1, [], true, none, []⟩

def inFlow (s : Scan) : Bool := !s.outerKeys.isEmpty

def column (s : Scan) : Int := s.cursor.column

def push (s : Scan) (t : Token) : Scan := { s with tokens := s.tokens ++ [t] }

def insertAt (s : Scan) (place : Nat) (t : Token) : Scan :=
  { s with tokens := s.tokens.insertIdx place t }

/-- Begins a collection in block style at a column to the right of the innermost one. -/
def openBlock (s : Scan) (column : Int) (place : Nat) (t : Token) : Scan :=
  if s.inFlow || column ≤ s.indent then s
  else { s.insertAt place t with indent := column, outerIndents := s.indent :: s.outerIndents }

/-- Ends the collections in block style to the right of a column. -/
def closeBlocks (s : Scan) (column : Int) : Scan :=
  if s.inFlow then s
  else
    let indents := s.indent :: s.outerIndents
    let closed := indents.takeWhile (column < ·)
    let rest := indents.drop closed.length
    { s with
      tokens := s.tokens ++ closed.map fun _ => Token.blockEnd
      indent := rest.headD (-1)
      outerIndents := rest.drop 1 }

/-- Gives up the key that may stand in the innermost collection. -/
def dropKey (s : Scan) : Option Scan :=
  if s.key.any (·.required) then none else some { s with key := none }

/-- Keeps the place in front of the next token, if a key is allowed there. -/
def saveKey (s : Scan) : Option Scan :=
  if s.keyAllowed then do
    let s ← s.dropKey
    return { s with
      key := some
        ⟨!s.inFlow && s.indent == s.column, s.tokens.length, s.cursor.line, s.cursor.column,
          s.cursor.index⟩ }
  else some s

/-- A key ends on its line and within so many bytes. -/
def keyLength : Nat := 1024

def PossibleKey.isStale (k : PossibleKey) (c : Cursor) : Bool :=
  k.line < c.line || k.index + keyLength < c.index

def withoutStale (c : Cursor) (key : Option PossibleKey) : Option (Option PossibleKey) :=
  match key with
  | none => some none
  | some k =>
    if !PossibleKey.isStale k c then some (some k) else if k.required then none else some none

def dropStaleKeys (s : Scan) : Option Scan := do
  let key ← withoutStale s.cursor s.key
  let outerKeys ← s.outerKeys.mapM (withoutStale s.cursor)
  return { s with key, outerKeys }

/-- Passes over blanks, comments and line breaks. Tabs do not count as blanks where a key may
begin. A byte order mark that begins a line is passed over as well, and takes up a column. -/
def skipGap : (fuel : Nat) → Scan → Scan
  | 0, s => s
  | fuel + 1, s =>
    let c :=
      if s.cursor.column = 0 && s.cursor.rest.head? = some '\uFEFF' then s.cursor.skip 1
      else s.cursor
    let tabs := s.inFlow || !s.keyAllowed
    let c := c.skipWhile fun x => x = ' ' || (tabs && x = '\t')
    let c := if c.rest.head? = some '#' then c.skipWhile (fun x => !isLineBreak x) else c
    if c.atBreak then
      skipGap fuel
        { s with cursor := c.nextLine.2, keyAllowed := s.keyAllowed || !s.inFlow }
    else { s with cursor := c }

def advance (s : Scan) (n : Nat) : Scan := { s with cursor := s.cursor.skip n }

/-- A mark between documents, or a directive: no collection goes on behind it. -/
def leaveDocument (s : Scan) : Option Scan := do
  let s ← (s.closeBlocks (-1)).dropKey
  return { s with keyAllowed := false }

def flowStart (s : Scan) (t : Token) : Option Scan := do
  let s ← s.saveKey
  return ({ s with key := none, outerKeys := s.key :: s.outerKeys, keyAllowed := true }.push
    t).advance 1

def flowEnd (s : Scan) (t : Token) : Option Scan := do
  let s ← s.dropKey
  let s := { s with keyAllowed := false }
  let s :=
    match s.outerKeys with
    | [] => s
    | key :: outerKeys => { s with key, outerKeys }
  return (s.push t).advance 1

def flowEntry (s : Scan) : Option Scan := do
  let s ← s.dropKey
  return ({ s with keyAllowed := true }.push .flowEntry).advance 1

def blockEntry (s : Scan) : Option Scan := do
  if !s.inFlow && !s.keyAllowed then none
  let s ← (s.openBlock s.column s.tokens.length .blockSequenceStart).dropKey
  return ({ s with keyAllowed := true }.push .blockEntry).advance 1

/-- A question mark, which announces a key. -/
def announcedKey (s : Scan) : Option Scan := do
  if !s.inFlow && !s.keyAllowed then none
  let s ← (s.openBlock s.column s.tokens.length .blockMappingStart).dropKey
  return ({ s with keyAllowed := !s.inFlow }.push .key).advance 1

/-- A colon: what stands in front of it may turn out to be a key. -/
def value (s : Scan) : Option Scan :=
  match s.key with
  | some k =>
    let s := s.insertAt k.tokenCount .key
    let s := s.openBlock k.column k.tokenCount .blockMappingStart
    some (({ s with key := none, keyAllowed := false }.push .value).advance 1)
  | none =>
    if !s.inFlow && !s.keyAllowed then none
    else
      let s := s.openBlock s.column s.tokens.length .blockMappingStart
      some (({ s with keyAllowed := !s.inFlow }.push .value).advance 1)

/-- A token that may be a key, and the text behind it. -/
def keyToken (s : Scan) (read : Cursor → Option (Token × Cursor)) : Option Scan := do
  let s ← s.saveKey
  let (t, c) ← read s.cursor
  return { s with cursor := c, keyAllowed := false }.push t

def plain (s : Scan) : Option Scan := do
  let s ← s.saveKey
  let (text, broken, c) ←
    Token.plainFrom s.inFlow (s.indent + 1).toNat (s.cursor.rest.length + 1) [] .empty s.cursor
  return { s with cursor := c, keyAllowed := broken }.push (.scalar .plain (String.ofList text))

def block (s : Scan) (isLiteral : Bool) : Option Scan := do
  let s ← s.dropKey
  let (text, c) ← Token.blockScalar isLiteral s.indent (s.cursor.skip 1)
  let style := if isLiteral then ScalarStyle.literal else .folded
  return { s with cursor := c, keyAllowed := true }.push (.scalar style (String.ofList text))

def quoted (s : Scan) (quote : Char) : Option Scan :=
  s.keyToken fun c => do
    let (text, c) ← Token.quotedFrom quote (c.rest.length + 1) [] (c.skip 1)
    return (.scalar .quoted (String.ofList text), c)

def isIndicator (c : Char) : Bool := "-?:,[]\x7b\x7d#&*!|>'\"%@`".toList.contains c

/-- Whether a plain scalar begins with the character `x` in front of a text. -/
def startsPlain (s : Scan) (x : Char) (xs : List Char) : Bool :=
  !(isIndicator x || isBlank x || isLineBreak x) || (x = '-' && !xs.head?.any isBlank)
    || (!s.inFlow && (x = '?' || x = ':') && !atGap xs)

/-- Reads the token at the cursor. -/
def token (s : Scan) : Option Scan :=
  match s.cursor.rest with
  | [] => none
  | x :: xs =>
    if s.cursor.column = 0 && x = '%' then do
      let s ← s.leaveDocument
      let (t, c) ← Token.directive s.cursor
      return { s with cursor := c }.push t
    else if s.cursor.atMark "---" then do
      return ((← s.leaveDocument).push .documentStart).advance 3
    else if s.cursor.atMark "..." then do
      return ((← s.leaveDocument).push .documentEnd).advance 3
    else if x = '[' then s.flowStart .flowSequenceStart
    else if x = '\x7b' then s.flowStart .flowMappingStart
    else if x = ']' then s.flowEnd .flowSequenceEnd
    else if x = '\x7d' then s.flowEnd .flowMappingEnd
    else if x = ',' then s.flowEntry
    else if x = '-' && atGap xs then s.blockEntry
    else if x = '?' && (s.inFlow || atGap xs) then s.announcedKey
    else if x = ':' && (s.inFlow || atGap xs) then s.value
    else if x = '*' then
      s.keyToken fun c => do
        let (name, c) ← Token.anchorName (c.skip 1)
        return (.reference name, c)
    else if x = '&' then
      s.keyToken fun c => do
        let (name, c) ← Token.anchorName (c.skip 1)
        return (.anchor name, c)
    else if x = '!' then s.keyToken (Token.tagAt s.inFlow)
    else if x = '|' && !s.inFlow then s.block true
    else if x = '>' && !s.inFlow then s.block false
    else if x = '\'' then s.quoted '\''
    else if x = '"' then s.quoted '"'
    else if s.startsPlain x xs then s.plain
    else none

/-- The end of the text is the end of a line. -/
def finish (s : Scan) : Option (List Token) := do
  let s ← (s.closeBlocks (-1)).dropKey
  return s.tokens

def run : (fuel : Nat) → Scan → Option (List Token)
  | 0, _ => none
  | fuel + 1, s => do
    let s ← (s.skipGap (s.cursor.rest.length + 1)).dropStaleKeys
    let s := s.closeBlocks s.column
    if s.cursor.rest.isEmpty then s.finish else run fuel (← s.token)

end Scan

/-- The characters that may stand in a text at all. -/
def isAllowed (c : Char) : Bool :=
  let n := c.toNat
  n = 9 || n = 10 || n = 13 || (32 ≤ n && n ≤ 126) || n = 133
    || (160 ≤ n && n ≠ 0xFFFE && n ≠ 0xFFFF)

/-- The tokens of a whole text, if it is well formed that far. -/
def tokens? (text : List Char) : Option (List Token) :=
  if text.all isAllowed then (Scan.start text).run (text.length + 1) else none

end DesignTokens.Yaml
