import DesignTokens.Proofs.Script.Lexing

/-! # Spellings of quoted text

A character of quoted text or of a template stands for itself, or is spelled by a letter behind a
backslash, or by the digits of its code. Every text that is spelled so, with line continuations
wherever they may stand, is read as one token. -/
namespace DesignTokens.Script

/-- The kinds of quotes, and the backticks of a template. -/
def quotes : List Char := ['"', '\'', '`']

/-- The characters that can mean something else than themselves in quoted text. -/
def marks : List Char := quotes ++ ['\\', '\n', '$']

namespace Escape

/-- The hexadecimal digits of either case with their values. -/
def digits : List (Char × Nat) :=
  ['0', '1', '2', '3', '4', '5', '6', '7', '8', '9', 'a', 'b', 'c', 'd', 'e', 'f'].zipIdx ++
    ['0', '1', '2', '3', '4', '5', '6', '7', '8', '9', 'A', 'B', 'C', 'D', 'E', 'F'].zipIdx

/-- A number and its digits, with any number of zeros in front. -/
inductive Hexadecimal : Nat → List Char → Prop
  | nil : Hexadecimal 0 []
  | concat {n d : Nat} {c : Char} {cs : List Char} (h : Hexadecimal n cs) (hd : (c, d) ∈ digits) :
      Hexadecimal (16 * n + d) (cs ++ [c])

theorem hexDigit?_of_mem : ∀ p ∈ digits, hexDigit? p.1 = some p.2 := by decide

/-- A digit means nothing but itself, and no digit opens braces. -/
theorem plain_of_mem : ∀ p ∈ digits, p.1 ∉ marks ∧ p.1 ≠ '\x7b' := by decide

namespace Hexadecimal
variable {n : Nat} {cs : List Char}

theorem all_isHexDigit (h : Hexadecimal n cs) : cs.all isHexDigit = true := by
  induction h with
  | nil => rfl
  | concat _ hd ih => simp [ih, isHexDigit, hexDigit?_of_mem _ hd]

theorem hexValue (h : Hexadecimal n cs) : hexValue cs = n := by
  induction h with
  | nil => rfl
  | concat _ hd ih =>
    rw [Escape.hexValue] at ih
    rw [Escape.hexValue, List.foldl_append, ih]
    simp [hexDigit?_of_mem _ hd]

theorem plain (h : Hexadecimal n cs) : ∀ c ∈ cs, c ∉ marks ∧ c ≠ '\x7b' := by
  induction h with
  | nil => simp
  | concat _ hd ih =>
    intro c hc
    rcases List.mem_append.1 hc with hc | hc
    · exact ih c hc
    · rw [List.mem_singleton.1 hc]
      exact plain_of_mem _ hd

theorem fixedHex? (h : Hexadecimal n cs) (rest : List Char) :
    Escape.fixedHex? cs.length (cs ++ rest) = some n := by
  rw [Escape.fixedHex?, List.take_left]
  simp [h.all_isHexDigit, h.hexValue]

/-- Digits in braces are read up to the closing brace. -/
theorem braced? (h : Hexadecimal n cs) (hne : cs ≠ []) (hn : n ≤ 0x10FFFF) (rest : List Char) :
    Escape.braced? ('\x7b' :: (cs ++ '\x7d' :: rest)) = some ⟨n, cs.length + 2⟩ := by
  have hdigits : (cs ++ '\x7d' :: rest).takeWhile isHexDigit = cs := by
    have hbrace : isHexDigit '\x7d' = false := by decide
    rw [List.takeWhile_append_of_pos (List.all_eq_true.1 h.all_isHexDigit),
      List.takeWhile_cons_of_neg (by simp [hbrace]), List.append_nil]
  obtain ⟨c, ds, rfl⟩ := List.exists_cons_of_ne_nil hne
  rw [Escape.braced?, hdigits, List.drop_left, h.hexValue, if_pos hn]
  rfl

end Hexadecimal

end Escape

open Escape (Hexadecimal)

/-- The letters that stand for a character behind a backslash. -/
def namedEscapes : List (Char × Char) :=
  [('n', '\n'), ('r', '\r'), ('t', '\t'), ('b', '\x08'), ('f', '\x0c'), ('v', '\x0b'),
    ('0', '\x00')]

/-- The surrogates of a character above U+FFFF. -/
def highSurrogate (c : Char) : Nat := 0xD800 + (c.toNat - 0x10000) / 0x400

def lowSurrogate (c : Char) : Nat := 0xDC00 + (c.toNat - 0x10000) % 0x400

/-- The ways in which a character is spelled between two quotes, backticks among them. -/
inductive SpelledChar (quote c : Char) : List Char → Prop
  | raw (hq : c ≠ quote) (hb : c ≠ '\\') (hn : quote ≠ '`' → c ≠ '\n') : SpelledChar quote c [c]
  | escaped (h : c ∉ ['n', 'r', 't', 'b', 'f', 'v', '0', 'x', 'u', '\n']) :
      SpelledChar quote c ['\\', c]
  | named {l : Char} (h : (l, c) ∈ namedEscapes) : SpelledChar quote c ['\\', l]
  | byte {ds : List Char} (h : Hexadecimal c.toNat ds) (hlength : ds.length = 2) :
      SpelledChar quote c ('\\' :: 'x' :: ds)
  | unit {ds : List Char} (h : Hexadecimal c.toNat ds) (hlength : ds.length = 4) :
      SpelledChar quote c ('\\' :: 'u' :: ds)
  | pair {ds es : List Char} (hc : 0x10000 ≤ c.toNat) (hd : Hexadecimal (highSurrogate c) ds)
      (hdlength : ds.length = 4) (he : Hexadecimal (lowSurrogate c) es)
      (helength : es.length = 4) :
      SpelledChar quote c ('\\' :: 'u' :: (ds ++ '\\' :: 'u' :: es))
  | braced {ds : List Char} (h : Hexadecimal c.toNat ds) (hne : ds ≠ []) :
      SpelledChar quote c ('\\' :: 'u' :: '\x7b' :: (ds ++ ['\x7d']))

/-- A text and how its characters are spelled one after the other. A line may be continued between
any two of them, and in a template no dollar sign stands as it is before a brace that does. -/
inductive Spelled (quote : Char) : List Char → List Char → Prop
  | nil : Spelled quote [] []
  | continued {s body : List Char} (h : Spelled quote s body) :
      Spelled quote s ('\\' :: '\n' :: body)
  | cons {c : Char} {text s body : List Char} (hc : SpelledChar quote c text)
      (hopens : quote = '`' → text = ['$'] → body.head? ≠ some '\x7b') (h : Spelled quote s body) :
      Spelled quote (c :: s) (text ++ body)

/-- A text that neither ends the literal around it nor opens an interpolation there. -/
inductive Inert (quote : Char) : List Char → Prop
  | nil : Inert quote []
  | plain {c : Char} {cs : List Char} (hq : c ≠ quote) (hb : c ≠ '\\')
      (hn : quote ≠ '`' → c ≠ '\n') (hd : quote = '`' → c = '$' → cs.head? ≠ some '\x7b')
      (h : Inert quote cs) : Inert quote (c :: cs)
  | escaped (c : Char) {cs : List Char} (h : Inert quote cs) : Inert quote ('\\' :: c :: cs)

namespace Inert
variable {quote : Char} {cs : List Char}

private theorem extent_quoted (hq : quote ∈ quotes) (hquote : quote ≠ '`') (h : Inert quote cs)
    (more : List Char) :
    Extent.ofQuoted quote (cs ++ quote :: more) = ⟨true, cs.length + 1⟩ := by
  have hb : '\\' ≠ quote := fun hb => absurd (hb ▸ hq) (by decide)
  rw [Extent.ofQuoted]
  induction h with
  | nil =>
    rw [List.nil_append, Extent.ofFrames_quote, Extent.ofFrames_nil]
    rfl
  | plain hne hslash hn _ _ ih =>
    rw [List.cons_append, Extent.ofFrames_plain _ _ _ hne (hn hquote) hslash, ih]
    exact congrArg (Extent.mk true) (Nat.add_comm _ _)
  | escaped c _ ih =>
    rw [List.cons_append, List.cons_append, Extent.ofFrames_escaped _ _ _ _ hb, ih]
    exact congrArg (Extent.mk true) (Nat.add_comm _ _)

private theorem extent_template (h : Inert '`' cs) (more : List Char) :
    Extent.ofTemplate (cs ++ '`' :: more) = ⟨true, cs.length + 1⟩ := by
  rw [Extent.ofTemplate]
  induction h with
  | nil =>
    rw [List.nil_append, Extent.ofFrames_backtick, Extent.ofFrames_nil]
    rfl
  | @plain c cs hne hslash _ hd _ ih =>
    have hopens : c = '$' → (cs ++ '`' :: more).head? ≠ some '\x7b' := by
      cases cs with
      | nil => simp
      | cons d cs => exact hd rfl
    rw [List.cons_append, Extent.ofFrames_static _ _ hslash hne hopens, ih]
    exact congrArg (Extent.mk true) (Nat.add_comm _ _)
  | escaped c _ ih =>
    rw [List.cons_append, List.cons_append, Extent.ofFrames_templateEscaped, ih]
    exact congrArg (Extent.mk true) (Nat.add_comm _ _)

theorem interpolates (h : Inert '`' cs) : Extent.interpolates cs = false := by
  induction h with
  | nil => rfl
  | @plain c cs _ hslash _ hd _ ih =>
    rw [Extent.interpolates]
    · exact ih
    · exact fun d ds hc => absurd hc hslash
    · rintro ds rfl rfl
      exact hd rfl rfl rfl
  | escaped c _ ih => rwa [Extent.interpolates]

/-- Characters that mean nothing else stand before any inert text. -/
theorem append_plain {ds : List Char} (hq : quote ∈ quotes)
    (hds : ∀ c ∈ ds, c ∉ marks) (h : Inert quote cs) : Inert quote (ds ++ cs) := by
  induction ds with
  | nil => exact h
  | cons d ds ih =>
    obtain ⟨hd, hds⟩ := List.forall_mem_cons.1 hds
    obtain ⟨hquote, hother⟩ := not_or.1 (mt List.mem_append.2 hd)
    simp only [List.mem_cons, List.not_mem_nil, or_false, not_or] at hother
    obtain ⟨hslash, hline, hdollar⟩ := hother
    exact .plain (fun hsame => hquote (hsame ▸ hq)) hslash (fun _ => hline)
      (fun _ hsame => absurd hsame hdollar) (ih hds)

end Inert

section
variable {quote c : Char} {text s body : List Char}

theorem SpelledChar.inert (hq : quote ∈ quotes) (h : SpelledChar quote c text)
    (hopens : quote = '`' → text = ['$'] → body.head? ≠ some '\x7b') (hbody : Inert quote body) :
    Inert quote (text ++ body) := by
  have hdigits {n : Nat} {ds cs : List Char} (hds : Hexadecimal n ds) (hcs : Inert quote cs) :
      Inert quote (ds ++ cs) :=
    hcs.append_plain hq fun c hc => (hds.plain c hc).1
  cases h with
  | raw hne hb hn => exact .plain hne hb hn (fun ht hd => hopens ht (hd ▸ rfl)) hbody
  | escaped _ => exact .escaped c hbody
  | named _ => exact .escaped _ hbody
  | byte hds _ => exact .escaped 'x' (hdigits hds hbody)
  | unit hds _ => exact .escaped 'u' (hdigits hds hbody)
  | pair _ hds _ hes _ =>
    rw [List.cons_append, List.cons_append, List.append_assoc]
    exact .escaped 'u' (hdigits hds (.escaped 'u' (hdigits hes hbody)))
  | @braced ds hds _ =>
    have hclose : Inert quote (['\x7d'] ++ body) :=
      hbody.append_plain hq (List.forall_mem_singleton.2 (by decide))
    have hopen : Inert quote (['\x7b'] ++ (ds ++ '\x7d' :: body)) :=
      (hdigits hds hclose).append_plain hq (List.forall_mem_singleton.2 (by decide))
    have htext : '\\' :: 'u' :: '\x7b' :: (ds ++ ['\x7d']) ++ body =
        '\\' :: 'u' :: (['\x7b'] ++ (ds ++ '\x7d' :: body)) := by simp
    rw [htext]
    exact .escaped 'u' hopen

theorem Spelled.inert (hq : quote ∈ quotes) (h : Spelled quote s body) : Inert quote body := by
  induction h with
  | nil => exact .nil
  | continued _ ih => exact .escaped '\n' ih
  | cons hc hopens _ ih => exact hc.inert hq hopens ih

namespace Escape

theorem charOf_toNat (c : Char) : charOf c.toNat = c := by
  have hvalid : c.toNat.isValidChar := c.valid
  rw [charOf, if_pos hvalid, Char.ofNat_toNat]

private theorem not_isHighSurrogate (c : Char) : isHighSurrogate c.toNat = false := by
  have hvalid : c.toNat < 0xD800 ∨ 0xDFFF < c.toNat ∧ c.toNat < 0x110000 := c.valid
  simp only [isHighSurrogate, Bool.and_eq_false_iff, decide_eq_false_iff_not]
  omega

private theorem combine_surrogates (hc : 0x10000 ≤ c.toNat) :
    combine (highSurrogate c) (lowSurrogate c) = c.toNat := by
  unfold combine highSurrogate lowSurrogate
  omega

private theorem surrogates (hc : 0x10000 ≤ c.toNat) :
    isHighSurrogate (highSurrogate c) = true ∧ isLowSurrogate (lowSurrogate c) = true := by
  have hvalid : c.toNat < 0xD800 ∨ 0xDFFF < c.toNat ∧ c.toNat < 0x110000 := c.valid
  have hhigh : 0xD800 ≤ highSurrogate c ∧ highSurrogate c < 0xDC00 := by
    unfold highSurrogate
    omega
  have hlow : 0xDC00 ≤ lowSurrogate c ∧ lowSurrogate c < 0xE000 := by
    unfold lowSurrogate
    omega
  simp [isHighSurrogate, isLowSurrogate, hhigh, hlow]

theorem codePoint?_unit {n : Nat} {ds : List Char} (h : Hexadecimal n ds) (hlength : ds.length = 4)
    (rest : List Char) : codePoint? (ds ++ rest) = some ⟨n, 4⟩ := by
  have hcode := h.fixedHex? rest
  rw [hlength] at hcode
  have hne : ∀ cs, ds ++ rest ≠ '\x7b' :: cs := by
    intro cs hcs
    cases ds with
    | nil => cases hlength
    | cons d ds =>
      rw [(List.cons_eq_cons.1 hcs).1] at h
      exact (h.plain '\x7b' List.mem_cons_self).2 rfl
  rw [codePoint?.eq_def]
  split
  · rename_i hcs
    exact absurd hcs (hne _)
  · rw [hcode]
    rfl

/-- A code that is no surrogate is that of its character, whatever comes behind it. -/
theorem unicode?_of_codePoint? {length : Nat} {cs : List Char}
    (h : codePoint? cs = some ⟨c.toNat, length⟩) : unicode? cs = some (c, length) := by
  rw [unicode?, h, Option.map_some, not_isHighSurrogate, charOf_toNat]

/-- A surrogate is read together with the one behind it. -/
theorem unicode?_of_surrogates {high low length : Nat} {cs : List Char}
    (h : codePoint? cs = some ⟨high, length⟩) (hhigh : isHighSurrogate high = true)
    (hlow : lowSurrogate? (cs.drop length) = some low) :
    unicode? cs = some (charOf (combine high low), length + 6) := by
  rw [unicode?, h, Option.map_some]
  dsimp only
  rw [hhigh, hlow]

private theorem unicode?_pair {ds es : List Char} (hc : 0x10000 ≤ c.toNat)
    (hd : Hexadecimal (highSurrogate c) ds) (hdlength : ds.length = 4)
    (he : Hexadecimal (lowSurrogate c) es) (helength : es.length = 4) (rest : List Char) :
    unicode? (ds ++ '\\' :: 'u' :: (es ++ rest)) = some (c, 10) := by
  obtain ⟨hhigh, hlow⟩ := surrogates hc
  have hcode := he.fixedHex? rest
  rw [helength] at hcode
  have hbehind : lowSurrogate? ((ds ++ '\\' :: 'u' :: (es ++ rest)).drop 4) =
      some (lowSurrogate c) := by
    rw [← hdlength, List.drop_left, lowSurrogate?, hcode, Option.filter_some, if_pos hlow]
  rw [unicode?_of_surrogates (codePoint?_unit hd hdlength _) hhigh hbehind, combine_surrogates hc,
    charOf_toNat]

theorem decode_value {l : Char} {cs : List Char} {text : List Char} {length : Nat}
    (h : value l cs = (text, length)) :
    decode ('\\' :: l :: cs) = text ++ decode (cs.drop length) := by
  rw [decode, h]

theorem decode_raw (hb : c ≠ '\\') (cs : List Char) : decode (c :: cs) = c :: decode cs := by
  rw [decode]
  · exact fun hc => absurd hc hb
  · exact fun d ds hc => absurd hc hb

private theorem value_escaped (h : c ∉ ['n', 'r', 't', 'b', 'f', 'v', '0', 'x', 'u', '\n'])
    (cs : List Char) : value c cs = ([c], 0) := by
  unfold value
  split <;> simp at h ⊢

private theorem value_named : ∀ p ∈ namedEscapes, ∀ cs, value p.1 cs = ([p.2], 0) := by
  simp [namedEscapes, value]

theorem value_unicode {cs : List Char} {length : Nat} (h : unicode? cs = some (c, length)) :
    value 'u' cs = ([c], length) := by
  simp [value, h]

end Escape

/-- A spelling is decoded to its character, whatever comes behind it. -/
theorem SpelledChar.decode (h : SpelledChar quote c text) (rest : List Char) :
    Escape.decode (text ++ rest) = c :: Escape.decode rest := by
  cases h with
  | raw _ hb _ => exact Escape.decode_raw hb rest
  | escaped hc => exact Escape.decode_value (Escape.value_escaped hc rest)
  | named hl => exact Escape.decode_value (Escape.value_named _ hl rest)
  | @byte ds hds hlength =>
    have hcode := hds.fixedHex? rest
    rw [hlength] at hcode
    have hvalue : Escape.value 'x' (ds ++ rest) = ([c], ds.length) := by
      simp [Escape.value, hcode, Escape.charOf_toNat, hlength]
    exact (Escape.decode_value hvalue).trans (by rw [List.drop_left]; rfl)
  | @unit ds hds hlength =>
    have hcode := Escape.codePoint?_unit hds hlength rest
    have hvalue := Escape.value_unicode (Escape.unicode?_of_codePoint? hcode)
    rw [← hlength] at hvalue
    exact (Escape.decode_value hvalue).trans (by rw [List.drop_left]; rfl)
  | @pair ds es hc hds hdlength hes helength =>
    have hvalue := Escape.value_unicode (Escape.unicode?_pair hc hds hdlength hes helength rest)
    have htext : ds ++ '\\' :: 'u' :: (es ++ rest) = (ds ++ '\\' :: 'u' :: es) ++ rest := by simp
    have hlength : 10 = (ds ++ '\\' :: 'u' :: es).length := by simp [hdlength, helength]
    rw [htext, hlength] at hvalue
    exact (Escape.decode_value hvalue).trans (by rw [List.drop_left]; rfl)
  | @braced ds hds hne =>
    have hlast : c.toNat ≤ 0x10FFFF := by
      have hvalid : c.toNat < 0xD800 ∨ 0xDFFF < c.toNat ∧ c.toNat < 0x110000 := c.valid
      omega
    have hcode : Escape.codePoint? ('\x7b' :: (ds ++ '\x7d' :: rest)) =
        some ⟨c.toNat, ds.length + 2⟩ := hds.braced? hne hlast rest
    have hvalue := Escape.value_unicode (Escape.unicode?_of_codePoint? hcode)
    have htext : '\x7b' :: (ds ++ '\x7d' :: rest) = '\x7b' :: (ds ++ ['\x7d']) ++ rest := by simp
    have hlength : ds.length + 2 = ('\x7b' :: (ds ++ ['\x7d'])).length := by simp
    rw [htext, hlength] at hvalue
    exact (Escape.decode_value hvalue).trans (by rw [List.drop_left]; rfl)

theorem Spelled.decode (h : Spelled quote s body) : Escape.decode body = s := by
  induction h with
  | nil => rw [Escape.decode]
  | continued _ ih => exact (Escape.decode_value rfl).trans ih
  | cons hc _ _ ih => rw [hc.decode, ih]

end

/-- The token of a text between quotes or backticks. -/
def quotedKind (quote : Char) (value : String) : TokenKind :=
  if quote = '`' then .template (some value) else .string value

/-- Wherever a spelled text stands between its quotes, it is read up to the closing one. -/
theorem Spelled.read {quote : Char} (hq : quote ∈ quotes) {s : String} {body : List Char}
    (h : Spelled quote s.toList body) (regexAllowed : Bool) (more : List Char) :
    Lexer.read regexAllowed quote (body ++ quote :: more) =
      (quotedKind quote s, body.length + 1) := by
  have hquoted (hquote : quote ≠ '`') : Lexer.readQuoted quote (body ++ quote :: more) =
      (.string s, body.length + 1) := by
    rw [Lexer.readQuoted, (h.inert hq).extent_quoted hq hquote]
    dsimp only
    rw [if_pos rfl, Nat.add_sub_cancel, List.take_left, h.decode, String.ofList_toList]
  simp only [quotes, List.mem_cons, List.not_mem_nil, or_false] at hq
  rcases hq with rfl | rfl | rfl
  · exact hquoted (by decide)
  · exact hquoted (by decide)
  · change Lexer.readTemplate (body ++ '`' :: more) = (.template (some s), body.length + 1)
    have hinert : Inert '`' body := h.inert (by decide)
    rw [Lexer.readTemplate, hinert.extent_template]
    dsimp only
    rw [if_pos rfl, Nat.add_sub_cancel, List.take_left, Lexer.templateText, hinert.interpolates,
      h.decode, String.ofList_toList]
    rfl

/-- A text between quotes is one token with that text as its value, however the text is spelled. -/
theorem lex_spelled {quote : Char} (hq : quote ∈ quotes) {s : String} {body : List Char}
    (h : Spelled quote s.toList body) (rule : SlashRule) :
    let source := String.ofList (quote :: (body ++ [quote]))
    lex rule source = [⟨quotedKind quote s, ⟨0, source.utf8ByteSize⟩⟩,
      ⟨.endOfText, ⟨source.utf8ByteSize, source.utf8ByteSize⟩⟩] := by
  have hread := h.read hq (rule.allowsRegex none) []
  have hall : (body ++ [quote]).length = body.length + 1 := by simp
  rw [← hall] at hread
  dsimp only
  rw [lex, String.toList_ofList, lexFrom_cons _ _ _ _ _ hread, List.take_length, List.drop_length,
    lexFrom_nil, Nat.zero_add, ← Text.utf8Length_eq]

/-- Characters that would open an interpolation side by side, and two more by their codes. -/
def mixedText : List Char := ['$', '\x7b', 'é', '\n', '😀']

/-- They are spelled with a continuation between the first two, and with digits of either case. -/
def mixedBody : List Char :=
  ['$', '\\', '\n', '\x7b', '\\', 'u', '0', '0', 'E', '9', '\\', 'n',
    '\\', 'u', 'D', '8', '3', 'd', '\\', 'u', 'D', 'E', '0', '0']

theorem lex_spelled_mixed : Spelled '`' (String.ofList mixedText).toList mixedBody ∧
    lex .byContext (String.ofList ('`' :: (mixedBody ++ ['`']))) =
      [⟨.template (some (String.ofList mixedText)), ⟨0, 26⟩⟩, ⟨.endOfText, ⟨26, 26⟩⟩] := by
  have hfour {n : Nat} {cs : List Char} (a b c d : Char × Nat)
      (hmem : ∀ p ∈ [a, b, c, d], p ∈ Escape.digits) (hcs : cs = [a.1, b.1, c.1, d.1])
      (hn : n = 16 * (16 * (16 * a.2 + b.2) + c.2) + d.2) : Hexadecimal n cs := by
    have h := Hexadecimal.nil.concat (hmem a (by simp))
    rw [Nat.mul_zero, Nat.zero_add] at h
    rw [hcs, hn]
    exact ((h.concat (hmem b (by simp))).concat (hmem c (by simp))).concat (hmem d (by simp))
  have hdollar : SpelledChar '`' '$' ['$'] := .raw (by decide) (by decide) (by decide)
  have hbrace : SpelledChar '`' '\x7b' ['\x7b'] := .raw (by decide) (by decide) (by decide)
  have hunit : SpelledChar '`' 'é' ['\\', 'u', '0', '0', 'E', '9'] :=
    .unit (hfour ('0', 0) ('0', 0) ('E', 14) ('9', 9) (by decide) rfl (by decide)) rfl
  have hnamed : SpelledChar '`' '\n' ['\\', 'n'] := .named (by decide)
  have hpair : SpelledChar '`' '😀'
      ('\\' :: 'u' :: (['D', '8', '3', 'd'] ++ '\\' :: 'u' :: ['D', 'E', '0', '0'])) :=
    .pair (by decide)
      (hfour ('D', 13) ('8', 8) ('3', 3) ('d', 13) (by decide) rfl (by decide)) rfl
      (hfour ('D', 13) ('E', 14) ('0', 0) ('0', 0) (by decide) rfl (by decide)) rfl
  have hspelled : Spelled '`' (String.ofList mixedText).toList mixedBody := by
    rw [String.toList_ofList]
    exact .cons hdollar (by decide) (.continued (.cons hbrace (by decide) (.cons hunit (by decide)
      (.cons hnamed (by decide) (.cons hpair (by decide) .nil)))))
  exact ⟨hspelled, lex_spelled (by decide) hspelled .byContext⟩

end DesignTokens.Script
