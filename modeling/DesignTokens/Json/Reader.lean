import DesignTokens.Json.Value
import DesignTokens.Json.Range
import DesignTokens.OrderedMap
import DesignTokens.Rest
import DesignTokens.Text.Position

/-! # Reading JSON texts from left to right -/
namespace DesignTokens.Json

abbrev Outcome (α : Type) (cs : List Char) := Except Refusal (α × Rest cs)

/-- Reads a value at the front of a text, or gives the first thing that is wrong with it. -/
abbrev Reader (α : Type) := (cs : List Char) → Outcome α cs

namespace Outcome
variable {α β : Type} {cs ds : List Char}

def widen (h : ds.length ≤ cs.length) (o : Outcome α ds) : Outcome α cs :=
  o.map fun (value, rest) => (value, rest.widen h)

def mapValue (f : α → β) (o : Outcome α cs) : Outcome β cs :=
  o.map fun (value, rest) => (f value, rest)

/-- Goes on reading behind what was read. -/
def andThen (o : Outcome α cs) (next : α → Reader β) : Outcome β cs :=
  match o with
  | .error refusal => .error refusal
  | .ok (value, rest) => (next value rest.1).widen (Nat.le_of_lt rest.2)

end Outcome

/-- A value in an unread part of the text may be spelled in ways that a value that is kept may
not: lone surrogates, numbers out of range, and any nesting. -/
inductive Strictness | kept | skipped
  deriving Repr, DecidableEq

def isBlank (c : Char) : Bool := c = ' ' || c = '\n' || c = '\t' || c = '\r'

def skipBlank (cs : List Char) : List Char := cs.dropWhile isBlank

theorem length_skipBlank_le (cs : List Char) : (skipBlank cs).length ≤ cs.length :=
  (List.dropWhile_sublist isBlank).length_le

/-- Reads behind the blanks at the front. -/
def behindBlank {α : Type} {cs : List Char} (o : Outcome α (skipBlank cs)) : Outcome α cs :=
  o.widen (length_skipBlank_le cs)

namespace Reader

def hexDigit? (c : Char) : Option Nat := Numeral.digitOf? 16 c

/-- The four digits of an escape. They are missed where fewer than four bytes are left. -/
def hexEscape : Reader Nat
  | a :: b :: c :: d :: rest =>
    match hexDigit? a, hexDigit? b, hexDigit? c, hexDigit? d with
    | some a, some b, some c, some d =>
      .ok (((a * 16 + b) * 16 + c) * 16 + d, ⟨rest, by simp; omega⟩)
    | _, _, _, _ => .error .malformed
  | cs => .error (if Text.utf8Length cs < 4 then .truncated else .malformed)

/-- The second half of a surrogate pair. -/
def lowSurrogate (high : Nat) : Reader Char
  | '\\' :: 'u' :: cs =>
    match hexEscape cs with
    | .error refusal => .error refusal
    | .ok (low, rest) =>
      if 0xDC00 ≤ low ∧ low ≤ 0xDFFF then
        .ok (Char.ofNat (0x10000 + (high - 0xD800) * 0x400 + (low - 0xDC00)),
          rest.widen (by simp; omega))
      else .error .malformed
  | [] => .error .truncated
  | ['\\'] => .error .truncated
  | _ => .error .malformed

/-- A Unicode escape behind its letter. A skipped one stands for the replacement character. -/
def unicodeEscape (strictness : Strictness) : Reader Char := fun cs =>
  match hexEscape cs with
  | .error refusal => .error refusal
  | .ok (code, rest) =>
    if strictness = .skipped then .ok ('\uFFFD', rest)
    else if 0xDC00 ≤ code ∧ code ≤ 0xDFFF then .error .malformed
    else if 0xD800 ≤ code ∧ code ≤ 0xDBFF then
      (lowSurrogate code rest.1).widen (Nat.le_of_lt rest.2)
    else .ok (Char.ofNat code, rest)

/-- An escape behind its backslash. -/
def escape (strictness : Strictness) : Reader Char
  | [] => .error .truncated
  | c :: cs =>
    match c with
    | '"' => .ok ('"', Rest.tail _ _)
    | '\\' => .ok ('\\', Rest.tail _ _)
    | '/' => .ok ('/', Rest.tail _ _)
    | 'b' => .ok ('\x08', Rest.tail _ _)
    | 'f' => .ok ('\x0c', Rest.tail _ _)
    | 'n' => .ok ('\n', Rest.tail _ _)
    | 'r' => .ok ('\r', Rest.tail _ _)
    | 't' => .ok ('\t', Rest.tail _ _)
    | 'u' => (unicodeEscape strictness cs).widen (by simp)
    | _ => .error .malformed

/-- The characters of a string behind its opening quote. -/
def characters (strictness : Strictness) : (cs : List Char) → Outcome (List Char) cs
  | [] => .error .truncated
  | '"' :: cs => .ok ([], Rest.tail _ cs)
  | '\\' :: cs =>
    match escape strictness cs with
    | .error refusal => .error refusal
    | .ok (c, rest) =>
      match characters strictness rest.1 with
      | .error refusal => .error refusal
      | .ok (tail, last) =>
        .ok (c :: tail, last.widen (by have := rest.2; simp; omega))
  | c :: cs =>
    if c.toNat < 32 then .error .malformed
    else
      match characters strictness cs with
      | .error refusal => .error refusal
      | .ok (tail, last) => .ok (c :: tail, last.widen (by simp))
termination_by cs => cs.length
decreasing_by
  · have := rest.2; simp; omega
  · simp

def stringTail (strictness : Strictness) : Reader String := fun cs =>
  (characters strictness cs).mapValue String.ofList

/-- What is wrong where a digit is missing. -/
def missingDigit (strictness : Strictness) (cs : List Char) : Refusal :=
  if cs.isEmpty && strictness = .kept then .truncated else .malformed

def exponentLength (strictness : Strictness) : List Char → Except Refusal Nat
  | [] => .ok 0
  | mark :: cs =>
    if mark = 'e' ∨ mark = 'E' then
      let sign := (cs.take 1).filter fun c => c = '+' || c = '-'
      let digits := (cs.drop sign.length).takeWhile Char.isDigit
      if digits.isEmpty then .error (missingDigit strictness (cs.drop sign.length))
      else .ok (1 + sign.length + digits.length)
    else .ok 0

def fractionLength (strictness : Strictness) : List Char → Except Refusal Nat
  | '.' :: cs =>
    let digits := cs.takeWhile Char.isDigit
    if digits.isEmpty then .error (missingDigit strictness cs)
    else (exponentLength strictness (cs.drop digits.length)).map (1 + digits.length + ·)
  | cs => exponentLength strictness cs

def unsignedLength (strictness : Strictness) (cs : List Char) : Except Refusal Nat :=
  let digits := cs.takeWhile Char.isDigit
  match digits with
  | [] => .error (missingDigit strictness cs)
  | '0' :: _ :: _ => .error .malformed
  | _ => (fractionLength strictness (cs.drop digits.length)).map (digits.length + ·)

def numberLength (strictness : Strictness) : List Char → Except Refusal Nat
  | '-' :: cs => (unsignedLength strictness cs).map (1 + ·)
  | cs => unsignedLength strictness cs

/-- A number that begins with the first character. One that is kept has to be finite. -/
def number (strictness : Strictness) : Reader String
  | [] => .error .truncated
  | c :: cs =>
    match numberLength strictness (c :: cs) with
    | .error refusal => .error refusal
    | .ok length =>
      let text := (c :: cs).take length
      if strictness = .kept && outOfRange text then .error .malformed
      else
        .ok (String.ofList text,
          ⟨cs.drop (length - 1), by rw [List.length_drop, List.length_cons]; omega⟩)

/-- The rest of a word. -/
def word {α : Type} (value : α) : (expected : List Char) → (c : Char) → (cs : List Char) →
    Outcome α (c :: cs)
  | [], c, cs => .ok (value, Rest.tail c cs)
  | _ :: _, _, [] => .error .truncated
  | e :: es, _, c :: cs =>
    if e = c then (word value es c cs).widen (by simp) else .error .malformed

/-- A value that is no container. -/
def scalar (strictness : Strictness) : Reader Value
  | [] => .error .truncated
  | 'n' :: cs => word .null "ull".toList 'n' cs
  | 't' :: cs => word (.bool true) "rue".toList 't' cs
  | 'f' :: cs => word (.bool false) "alse".toList 'f' cs
  | '"' :: cs => ((stringTail strictness cs).mapValue .string).widen (by simp)
  | c :: cs =>
    if c = '-' || c.isDigit then (number strictness (c :: cs)).mapValue .number
    else .error .malformed

/-- What comes behind a member of a container. -/
inductive Next (cs : List Char)
  | member (rest : Rest cs)
  | done (rest : Rest cs)

/-- The comma behind a member and the start of the next one, or the end of the container. -/
def nextMember (closing : Char) (starts : Char → Bool) (cs : List Char) :
    Except Refusal (Next cs) :=
  match h : skipBlank cs with
  | [] => .error .truncated
  | c :: ds =>
    have hd : ds.length < cs.length := by
      have := length_skipBlank_le cs
      rw [h] at this
      simp at this
      omega
    if c = closing then .ok (.done ⟨ds, hd⟩)
    else if c = ',' then
      match h' : skipBlank ds with
      | [] => .error .truncated
      | e :: es =>
        if starts e then
          .ok (.member ⟨e :: es, by have := length_skipBlank_le ds; rw [h'] at this; omega⟩)
        else .error .malformed
    else .error .malformed

variable {α σ : Type}

/-- The items of an array from the first one on. -/
def itemsFrom (read : Reader α) (cs : List Char) : Outcome (List α) cs :=
  match read cs with
  | .error refusal => .error refusal
  | .ok (item, rest) =>
    match nextMember ']' (· ≠ ']') rest.1 with
    | .error refusal => .error refusal
    | .ok (.done last) => .ok ([item], last.widen (Nat.le_of_lt rest.2))
    | .ok (.member more) =>
      match itemsFrom read more.1 with
      | .error refusal => .error refusal
      | .ok (items, last) =>
        .ok (item :: items, last.widen (Nat.le_of_lt (Nat.lt_trans more.2 rest.2)))
termination_by cs.length
decreasing_by exact Nat.lt_trans more.2 rest.2

/-- An array behind its opening bracket. -/
def items (read : Reader α) : Reader (List α) := fun cs =>
  behindBlank <|
    match skipBlank cs with
    | [] => .error .truncated
    | ']' :: rest => .ok ([], Rest.tail _ rest)
    | rest => itemsFrom read rest

/-- The members of an object behind the opening quote of the first key. Each one takes the state
onwards, from the end of its key. -/
def membersFrom (strictness : Strictness) (step : σ → String → Reader σ) (state : σ)
    (cs : List Char) : Outcome σ cs :=
  match stringTail strictness cs with
  | .error refusal => .error refusal
  | .ok (key, rest) =>
    match step state key rest.1 with
    | .error refusal => .error refusal
    | .ok (state, behind) =>
      match nextMember '\x7d' (· = '"') behind.1 with
      | .error refusal => .error refusal
      | .ok (.done last) =>
        .ok (state, last.widen (Nat.le_of_lt (Nat.lt_trans behind.2 rest.2)))
      | .ok (.member more) =>
        have hm : more.1.length < cs.length := Nat.lt_trans more.2 (Nat.lt_trans behind.2 rest.2)
        (membersFrom strictness step state (more.1.drop 1)).widen (by simp; omega)
termination_by cs.length
decreasing_by simp; omega

/-- An object behind its opening brace. -/
def members (strictness : Strictness) (step : σ → String → Reader σ) (state : σ) : Reader σ :=
  fun cs => behindBlank <|
    match skipBlank cs with
    | [] => .error .truncated
    | '\x7d' :: rest => .ok (state, Rest.tail _ rest)
    | '"' :: rest => (membersFrom strictness step state rest).widen (by simp)
    | _ => .error .malformed

/-- A value behind the colon of its key. -/
def behindColon (read : Reader α) : Reader α := fun cs =>
  behindBlank <|
    match skipBlank cs with
    | [] => .error .truncated
    | ':' :: rest => (read rest).widen (by simp)
    | _ => .error .malformed

/-- Any value whose containers have their parts read by `inner`; without it there are none. -/
def valueWith (strictness : Strictness) (inner : Option (Reader Value)) : Reader Value := fun cs =>
  behindBlank <|
    match skipBlank cs, inner with
    | '[' :: rest, some inner => ((items inner rest).mapValue .array).widen (by simp)
    | '\x7b' :: rest, some inner =>
      ((members strictness
          (fun entries key cs =>
            (behindColon inner cs).mapValue fun value => entries ++ [(key, value)])
          [] rest).mapValue .object).widen (by simp)
    | rest, _ => scalar strictness rest

/-- Any value in which no more than `nesting` containers enclose one another. -/
def value (strictness : Strictness) : (nesting : Nat) → Reader Value
  | 0 => valueWith strictness none
  | nesting + 1 => valueWith strictness (some (value strictness nesting))

/-- A value that is not kept. -/
def skip : Reader Unit := fun cs => (value .skipped cs.length cs).mapValue fun _ => ()

/-- Reads data inside at most so many containers. -/
abbrev Shape (α : Type) := (nesting : Nat) → Reader α

/-- What is wrong with a value of another type: a scalar is read to its end first. -/
def mismatch (cs : List Char) : Refusal :=
  match cs with
  | '[' :: _ => .wrongShape
  | '\x7b' :: _ => .wrongShape
  | cs =>
    match scalar .kept cs with
    | .error refusal => refusal
    | .ok _ => .wrongShape

def string : Shape String := fun _ cs =>
  behindBlank <|
    match skipBlank cs with
    | '"' :: rest => (stringTail .kept rest).widen (by simp)
    | rest => .error (mismatch rest)

def bool : Shape Bool := fun _ cs =>
  behindBlank <|
    match scalar .kept (skipBlank cs) with
    | .ok (.bool value, rest) => .ok (value, rest)
    | _ => .error (mismatch (skipBlank cs))

/-- The natural number a numeral without sign, point and exponent stands for. -/
def natural? (text : String) : Option Nat :=
  if text.toList.all Char.isDigit then Numeral.ofDigits? 10 text.toList else none

/-- A natural number of sixty-four bits. -/
def natural : Shape Nat := fun _ cs =>
  behindBlank <|
    match scalar .kept (skipBlank cs) with
    | .ok (.number text, rest) =>
      match (natural? text).filter (· < UInt64.size) with
      | some n => .ok (n, rest)
      | none => .error .wrongShape
    | _ => .error (mismatch (skipBlank cs))

/-- A list of values of one shape. -/
def list (item : Shape α) : Shape (List α) := fun nesting cs =>
  behindBlank <|
    match skipBlank cs, nesting with
    | '[' :: _, 0 => .error .malformed
    | '[' :: rest, nesting + 1 => (items (item nesting) rest).widen (by simp)
    | rest, _ => .error (mismatch rest)

/-- An object with any keys, the members of which are taken up one after the other. -/
def visit (initial : σ) (take : σ → String → α → σ) (entry : Shape α) : Shape σ :=
  fun nesting cs =>
    behindBlank <|
      match skipBlank cs, nesting with
      | '\x7b' :: _, 0 => .error .malformed
      | '\x7b' :: rest, nesting + 1 =>
        (members .kept
            (fun s key cs => (behindColon (entry nesting) cs).mapValue fun v => take s key v)
            initial rest).widen (by simp)
      | rest, _ => .error (mismatch rest)

/-- An object with any keys and with values of one shape. -/
def map (entry : Shape α) : Shape (OrderedMap α) := visit OrderedMap.empty OrderedMap.insert entry

/-- A named part of a record, and how its value changes what is built so far. -/
structure Field (σ : Type) where
  name : String
  required : Bool
  read : Shape (σ → σ)

/-- The member of an object that gives a field. A field is given once, and other keys are
skipped. -/
def fieldMember (fields : List (Field σ)) (nesting : Nat) (state : List String × σ)
    (key : String) : Reader (List String × σ) := fun cs =>
  match fields.find? (·.name = key) with
  | none => (behindColon skip cs).mapValue fun _ => state
  | some field =>
    if key ∈ state.1 then .error .wrongShape
    else
      (behindColon (field.read nesting) cs).mapValue fun change => (key :: state.1, change state.2)

/-- The end of a record that is written as an array. Fields that are required cannot be left out. -/
def leaveOut (fields : List (Field σ)) (state : σ) {cs : List Char} (rest : Rest cs) :
    Outcome σ cs :=
  if fields.any (·.required) then .error .wrongShape else .ok (state, rest)

/-- The fields of a record in their order, as the items of an array behind the first one. -/
def moreFieldItems (nesting : Nat) : (fields : List (Field σ)) → (state : σ) → Reader σ
  | [], state => fun cs =>
    behindBlank <|
      match skipBlank cs with
      | [] => .error .truncated
      | ']' :: rest => .ok (state, Rest.tail _ rest)
      | _ => .error .malformed
  | field :: fields, state => fun cs =>
    match nextMember ']' (· ≠ ']') cs with
    | .error refusal => .error refusal
    | .ok (.done rest) => leaveOut (field :: fields) state rest
    | .ok (.member more) =>
      (Outcome.andThen (field.read nesting more.1) fun change =>
        moreFieldItems nesting fields (change state)).widen (Nat.le_of_lt more.2)

/-- The fields of a record as an array behind its opening bracket. -/
def fieldItems (nesting : Nat) (fields : List (Field σ)) (state : σ) : Reader σ := fun cs =>
  behindBlank <|
    match skipBlank cs, fields with
    | [], _ => .error .truncated
    | ']' :: rest, fields => leaveOut fields state (Rest.tail _ rest)
    | _, [] => .error .malformed
    | rest, field :: fields =>
      Outcome.andThen (field.read nesting rest) fun change =>
        moreFieldItems nesting fields (change state)

/-- A record: an object with the named fields, or an array of their values. -/
def record (fields : List (Field σ)) (initial : σ) : Shape σ := fun nesting cs =>
  behindBlank <|
    match skipBlank cs, nesting with
    | '[' :: _, 0 => .error .malformed
    | '\x7b' :: _, 0 => .error .malformed
    | '[' :: rest, nesting + 1 => (fieldItems nesting fields initial rest).widen (by simp)
    | '\x7b' :: rest, nesting + 1 =>
      match members .kept (fieldMember fields nesting) ([], initial) rest with
      | .error refusal => .error refusal
      | .ok ((given, state), last) =>
        if fields.all fun field => !field.required || given.contains field.name then
          .ok (state, last.widen (by simp))
        else .error .wrongShape
    | rest, _ => .error (mismatch rest)

end Reader

/-- The containers that may enclose one another in a text. -/
def nestingLimit : Nat := 127

/-- The data of a whole text: nothing but blanks may follow it. -/
def read (shape : Reader.Shape α) (text : List Char) : Except Refusal α :=
  match shape nestingLimit text with
  | .error refusal => .error refusal
  | .ok (value, rest) => if skipBlank rest.1 = [] then .ok value else .error .malformed

end DesignTokens.Json
