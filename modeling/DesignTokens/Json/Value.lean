/-! # JSON values and their texts -/
namespace DesignTokens.Json

/-- A value as its text has it: a number keeps its spelling, an object its members in order. -/
inductive Value
  | null
  | bool (value : Bool)
  | number (text : String)
  | string (value : String)
  | array (items : List Value)
  | object (members : List (String × Value))
  deriving Repr

/-- Why a text was refused. -/
inductive Refusal
  /-- The text is no JSON. -/
  | malformed
  /-- The text ends too early. -/
  | truncated
  /-- The text has another shape than the data that is read from it. -/
  | wrongShape
  deriving Repr, DecidableEq

def hexDigit (n : Nat) : Char := "0123456789abcdef".toList.getD n '0'

/-- The spelling of a character inside a string. -/
def escape (c : Char) : List Char :=
  match c with
  | '"' => ['\\', '"']
  | '\\' => ['\\', '\\']
  | '\x08' => ['\\', 'b']
  | '\x0c' => ['\\', 'f']
  | '\n' => ['\\', 'n']
  | '\r' => ['\\', 'r']
  | '\t' => ['\\', 't']
  | c =>
    if c.toNat < 32 then
      ['\\', 'u', '0', '0', hexDigit (c.toNat / 16), hexDigit (c.toNat % 16)]
    else [c]

def quoted (text : String) : List Char := '"' :: (text.toList.flatMap escape ++ ['"'])

namespace Value

mutual

/-- The text of a value without blanks. -/
def compact : Value → List Char
  | null => "null".toList
  | bool true => "true".toList
  | bool false => "false".toList
  | number text => text.toList
  | string value => quoted value
  | array items => '[' :: (compactItems items ++ [']'])
  | object members => '\x7b' :: (compactMembers members ++ ['\x7d'])

def compactItems : List Value → List Char
  | [] => []
  | [v] => compact v
  | v :: vs => compact v ++ ',' :: compactItems vs

def compactMembers : List (String × Value) → List Char
  | [] => []
  | [(k, v)] => quoted k ++ ':' :: compact v
  | (k, v) :: ms => quoted k ++ ':' :: compact v ++ ',' :: compactMembers ms

end

/-- A new line that begins with two spaces for each level. -/
def newLine (level : Nat) : List Char := '\n' :: List.replicate (2 * level) ' '

mutual

/-- The text of a value with a line for each member, inside `level` containers. -/
def pretty (level : Nat) : Value → List Char
  | array [] => "[]".toList
  | array items => '[' :: (prettyItems level items ++ newLine level ++ [']'])
  | object [] => "\x7b\x7d".toList
  | object members => '\x7b' :: (prettyMembers level members ++ newLine level ++ ['\x7d'])
  | null => "null".toList
  | bool true => "true".toList
  | bool false => "false".toList
  | number text => text.toList
  | string value => quoted value

def prettyItems (level : Nat) : List Value → List Char
  | [] => []
  | [v] => newLine (level + 1) ++ pretty (level + 1) v
  | v :: vs => newLine (level + 1) ++ pretty (level + 1) v ++ ',' :: prettyItems level vs

def prettyMembers (level : Nat) : List (String × Value) → List Char
  | [] => []
  | [(k, v)] => newLine (level + 1) ++ quoted k ++ ": ".toList ++ pretty (level + 1) v
  | (k, v) :: ms =>
    newLine (level + 1) ++ quoted k ++ ": ".toList ++ pretty (level + 1) v
      ++ ',' :: prettyMembers level ms

end

def ofNat (n : Nat) : Value := number (toString n)

def ofStrings (texts : List String) : Value := array (texts.map string)

end Value
end DesignTokens.Json
