import DesignTokens.Proofs.Script.OffsetLiterals
import DesignTokens.Proofs.Script.Tiling

/-! # Tokens read by offset

The lexer that keeps an offset beside the characters ends, finds the tokens of the text, and gives
each of them the offsets between which it lies. -/
namespace DesignTokens.Script.Offsets
open Text (utf8Length isBlank)

/-- The input behind the letters that follow a regular expression. -/
def behindFlags (s : Input) : Input := s.advanceBy (s.rest.takeWhile Char.isAlpha).length

def regexKind (body : String) (text : List Char) : TokenKind := .regex (body ++ String.ofList text)

def regexOutcome (body : String) (inClass : Bool) (s : Input) : TokenKind × Input :=
  let e := Extent.ofRegex inClass s.rest
  let r := outcome .regularExpression (regexKind body) e s
  (r.1, if e.closed then behindFlags r.2 else r.2)

private theorem pos_of_closed_ofRegex {inClass : Bool} {cs : List Char}
    (h : (Extent.ofRegex inClass cs).closed) : 0 < (Extent.ofRegex inClass cs).length := by
  cases cs with
  | nil => cases h
  | cons c cs => exact Extent.length_ofRegex_pos inClass c cs

private theorem regexOutcome_step {inClass inClass' : Bool} (xs : List Char) {rest : List Char}
    (hextent : Extent.ofRegex inClass (xs ++ rest) =
      (Extent.ofRegex inClass' rest).more xs.length) (body : String) (offset : Nat) :
    regexOutcome (body ++ String.ofList xs) inClass' ⟨rest, offset + utf8Length xs⟩ =
      regexOutcome body inClass ⟨xs ++ rest, offset⟩ := by
  have hkind (m : Nat) : regexKind body (xs ++ rest.take m) =
      regexKind (body ++ String.ofList xs) (rest.take m) :=
    congrArg TokenKind.regex (append_ofList_append body xs (rest.take m))
  have hread := outcome_more (e := Extent.ofRegex inClass' rest) .regularExpression
    pos_of_closed_ofRegex xs rest offset hkind
  rw [regexOutcome, regexOutcome]
  dsimp only
  rw [hextent, hread]
  rfl

theorem readRegex_eq {steps : Nat} (cs : List Char) (h : cs.length < steps) (body : String)
    (inClass : Bool) (offset : Nat) :
    readRegex steps body inClass ⟨cs, offset⟩ =
      some (regexOutcome body inClass ⟨cs, offset⟩) := by
  obtain ⟨steps, rfl⟩ := Nat.exists_eq_add_one_of_ne_zero (Nat.ne_zero_of_lt h)
  cases cs with
  | nil =>
    rw [readRegex]
    rfl
  | cons c cs =>
    have hsteps : cs.length < steps := Nat.lt_of_succ_lt_succ h
    rw [readRegex]
    simp only [Input.next?]
    by_cases hslash : c = '\\'
    · subst hslash
      rw [if_pos rfl]
      cases cs with
      | nil => rfl
      | cons d cs =>
        have hextent : Extent.ofRegex inClass (['\\', d] ++ cs) =
            (Extent.ofRegex inClass cs).more ['\\', d].length :=
          Extent.ofRegex_escaped d cs inClass
        dsimp only
        rw [readRegex_eq cs (Nat.lt_of_succ_lt hsteps), ← append_ofList_singleton (body.push _),
          ← append_ofList_singleton body, ← append_ofList_append, Nat.add_assoc]
        exact congrArg some (regexOutcome_step ['\\', d] hextent body offset)
    have hextent := Extent.ofRegex_cons cs hslash inClass
    rw [if_neg hslash]
    by_cases hopen : c = '['
    · rw [if_pos hopen] at hextent ⊢
      rw [readRegex_eq cs hsteps, ← append_ofList_singleton]
      exact congrArg some (regexOutcome_step [c] hextent body offset)
    rw [if_neg hopen] at hextent ⊢
    by_cases hclose : c = ']'
    · rw [if_pos hclose] at hextent ⊢
      rw [readRegex_eq cs hsteps, ← append_ofList_singleton]
      exact congrArg some (regexOutcome_step [c] hextent body offset)
    rw [if_neg hclose] at hextent ⊢
    by_cases hend : c = '/' ∧ inClass = false
    · rw [if_pos hend] at hextent ⊢
      rw [readWhile_eq _ hsteps]
      simp [regexOutcome, regexKind, hextent, outcome, Extent.body, behindFlags, Input.advanceBy,
        Input.advance, Input.next?]
    rw [if_neg hend] at hextent ⊢
    by_cases hline : c = '\n'
    · rw [if_pos hline] at hextent ⊢
      simp [regexOutcome, hextent, outcome, Input.advanceBy, Input.advance, Input.next?]
    · rw [if_neg hline] at hextent ⊢
      rw [readRegex_eq cs hsteps, ← append_ofList_singleton]
      exact congrArg some (regexOutcome_step [c] hextent body offset)
termination_by steps

/-- What the reader of the whole text has read, and the input behind it. -/
def behind (r : TokenKind × Nat) (s : Input) : TokenKind × Input := (r.1, s.advanceBy r.2)

theorem regexOutcome_eq (s : Input) :
    regexOutcome "" false s = behind (Lexer.readRegex s.rest) s := by
  have hrest (n : Nat) : (s.advanceBy n).rest = s.rest.drop n := by rw [Input.advanceBy_eq]
  simp only [regexOutcome, regexKind, Lexer.readRegex, outcome, behind, behindFlags, hrest]
  cases (Extent.ofRegex false s.rest).closed with
  | false => rfl
  | true => simp [Extent.body, Input.advanceBy_advanceBy]

theorem readIdentifier_eq {steps : Nat} {cs : List Char} (h : cs.length < steps) (first : Char)
    (offset : Nat) :
    readIdentifier steps first ⟨cs, offset⟩ =
      some (behind (Lexer.readIdentifier first cs) ⟨cs, offset⟩) := by
  have hname : String.singleton first ++ String.ofList (cs.takeWhile isIdentifierPart) =
      String.ofList (first :: cs.takeWhile isIdentifierPart) := by
    rw [String.singleton_eq_ofList, ← String.ofList_append]
    rfl
  rw [readIdentifier, readWhile_eq _ h, hname]
  rfl

/-- A text with some of the characters that are left, and the input behind them. -/
def taken (text : String) (length : Nat) (s : Input) : String × Input :=
  (text ++ String.ofList (s.rest.take length), s.advanceBy length)

theorem taken_zero (text : String) (s : Input) : taken text 0 s = (text, s) := by
  rw [taken, List.take_zero, String.ofList_nil, String.append_empty]
  rfl

private theorem taken_cons (text : String) (length : Nat) (c : Char) (cs : List Char)
    (offset : Nat) :
    taken text (length + 1) ⟨c :: cs, offset⟩ =
      taken (text.push c) length ⟨cs, offset + c.utf8Size⟩ := by
  rw [taken, taken, List.take_succ_cons, append_ofList_cons]
  rfl

theorem readDigits_eq {steps : Nat} (cs : List Char) (h : cs.length < steps)
    (pointSeen markSeen : Bool) (text : String) (offset : Nat) :
    readDigits steps pointSeen markSeen text ⟨cs, offset⟩ =
      some (taken text (NumericLiteral.decimalLength pointSeen markSeen cs) ⟨cs, offset⟩) := by
  obtain ⟨steps, rfl⟩ := Nat.exists_eq_add_one_of_ne_zero (Nat.ne_zero_of_lt h)
  cases cs with
  | nil =>
    rw [readDigits, NumericLiteral.decimalLength, taken_zero]
    rfl
  | cons c cs =>
    have hsteps : cs.length < steps := Nat.lt_of_succ_lt_succ h
    have hbehind : (Input.mk (c :: cs) offset).advance = ⟨cs, offset + c.utf8Size⟩ := rfl
    rw [readDigits, NumericLiteral.decimalLength_cons]
    simp only [Input.peek?_mk, List.head?_cons, hbehind]
    split
    · rw [readDigits_eq cs hsteps, taken_cons]
    split
    · rw [readDigits_eq cs hsteps, taken_cons]
    split
    · cases cs with
      | nil =>
        rw [taken_cons]
        exact readDigits_eq [] hsteps _ _ _ _
      | cons sign cs =>
        have hsign : (Input.mk (sign :: cs) (offset + c.utf8Size)).advance =
            ⟨cs, offset + c.utf8Size + sign.utf8Size⟩ := rfl
        rw [List.head?_cons, NumericLiteral.exponentLength, taken_cons]
        dsimp only
        split
        · rw [hsign, readDigits_eq cs (Nat.lt_of_succ_lt hsteps), taken_cons]
        · rw [readDigits_eq (sign :: cs) hsteps]
    · rw [taken_zero]
termination_by steps

private theorem advance_suffix (s : Input) :
    (if s.peek? = some 'n' then s.advance else s) =
      s.advanceBy (NumericLiteral.suffixLength s.rest) := by
  obtain ⟨cs, offset⟩ := s
  rw [Input.peek?_mk]
  by_cases hsuffix : cs.head? = some 'n'
  · obtain ⟨cs, rfl⟩ := List.head?_eq_some_iff.1 hsuffix
    rw [if_pos hsuffix]
    rfl
  · have hlength : NumericLiteral.suffixLength cs = 0 := by
      rw [NumericLiteral.suffixLength]
      rintro rest rfl
      exact hsuffix rfl
    rw [if_neg hsuffix, hlength]
    rfl

theorem readDecimal_eq {steps : Nat} {cs : List Char} (h : cs.length < steps) (first : Char)
    (offset : Nat) :
    readDecimal steps first ⟨cs, offset⟩ =
      some (behind (NumericLiteral.readDecimal first cs) ⟨cs, offset⟩) := by
  have hrest (n : Nat) : (Input.advanceBy n ⟨cs, offset⟩).rest = cs.drop n := by
    rw [Input.advanceBy_eq]
  rw [readDecimal, readDigits_eq cs h]
  simp only [taken, Option.bind_eq_bind, Option.bind_some, advance_suffix, hrest,
    Input.advanceBy_advanceBy, String.toList_append, String.toList_singleton,
    String.toList_ofList, List.singleton_append]
  rfl

theorem readRadix_eq {steps : Nat} {cs : List Char} (h : cs.length < steps) (first mark : Char)
    (radix offset : Nat) :
    readRadix steps first radix ⟨mark :: cs, offset⟩ =
      let digits := cs.takeWhile NumericLiteral.isDigitOrLetter
      some (behind (NumericLiteral.kindOf first (NumericLiteral.ofRadix? radix digits),
        digits.length + 1) ⟨mark :: cs, offset⟩) := by
  have hbehind : (Input.mk (mark :: cs) offset).advance = ⟨cs, offset + mark.utf8Size⟩ := rfl
  rw [readRadix, hbehind, readWhile_eq _ h]
  simp only [Option.bind_eq_bind, Option.bind_some, String.empty_append, String.toList_ofList]
  rfl

theorem readNumber_eq {steps : Nat} {cs : List Char} (h : cs.length < steps) (first : Char)
    (offset : Nat) :
    readNumber steps first ⟨cs, offset⟩ =
      some (behind (NumericLiteral.read first cs) ⟨cs, offset⟩) := by
  by_cases hdecimal : first = '0' → cs.head?.bind NumericLiteral.radix? = none
  · have hnone : (if first = '0' then cs.head?.bind NumericLiteral.radix? else none) = none := by
      split
      · exact hdecimal ‹_›
      · rfl
    rw [readNumber, Input.peek?_mk, hnone, NumericLiteral.read_eq_readDecimal hdecimal]
    exact readDecimal_eq h first offset
  · obtain ⟨rfl, hradix⟩ := Classical.not_imp.1 hdecimal
    obtain ⟨radix, hradix⟩ := Option.ne_none_iff_exists'.1 hradix
    obtain ⟨mark, hhead, hmark⟩ := Option.bind_eq_some_iff.1 hradix
    obtain ⟨rest, rfl⟩ := List.head?_eq_some_iff.1 hhead
    rw [readNumber, Input.peek?_mk, if_pos rfl, hradix]
    dsimp only
    rw [readRadix_eq (Nat.lt_of_succ_lt h)]
    simp only [NumericLiteral.read, hmark]

theorem readQuoted_eq_behind {quote : Char} (hq : quote = '"' ∨ quote = '\'') {steps : Nat}
    {cs : List Char} (h : cs.length < steps) (offset : Nat) :
    readQuoted steps quote "" ⟨cs, offset⟩ =
      some (behind (Lexer.readQuoted quote cs) ⟨cs, offset⟩) := by
  rw [readQuoted_eq hq cs h]
  simp only [quotedOutcome, outcome, String.empty_append]
  rfl

theorem readTemplate_eq_behind {steps : Nat} {cs : List Char} (h : cs.length < steps)
    (offset : Nat) :
    readTemplate steps "" false ⟨cs, offset⟩ =
      some (behind (Lexer.readTemplate cs) ⟨cs, offset⟩) := by
  rw [readTemplate_eq cs h]
  simp only [templateOutcome, outcome, templateKind, Bool.false_or, String.empty_append]
  rfl

theorem readDot_eq {steps : Nat} {cs : List Char} (h : cs.length < steps) (regexAllowed : Bool)
    (offset : Nat) :
    read steps regexAllowed '.' ⟨cs, offset⟩ = some (behind (Lexer.readDot cs) ⟨cs, offset⟩) := by
  rw [read]
  cases cs with
  | nil => rfl
  | cons c cs =>
    rw [Lexer.readDot_cons, Input.peek?_mk, List.head?_cons, Option.any_some]
    by_cases hdigit : c.isDigit
    · have hspread : ¬(c = '.' ∧ cs.head? = some '.') := by
        rintro ⟨rfl, -⟩
        exact absurd hdigit (by decide)
      rw [if_pos hdigit, if_neg hspread, if_pos hdigit]
      exact readNumber_eq h '.' offset
    · have hsecond : Input.peekSecond? ⟨c :: cs, offset⟩ = cs.head? := List.head?_eq_getElem?.symm
      rw [if_neg hdigit, if_neg hdigit, hsecond]
      by_cases hspread : c = '.' ∧ cs.head? = some '.'
      · obtain ⟨rfl, hpoint⟩ := hspread
        rw [if_pos ⟨rfl, hpoint⟩, if_pos ⟨rfl, hpoint⟩]
        rfl
      · rw [if_neg hspread, if_neg fun h => hspread ⟨Option.some.inj h.1, h.2⟩]
        rfl

theorem readSlash_eq {steps : Nat} {cs : List Char} (h : cs.length < steps) (regexAllowed : Bool)
    (offset : Nat) :
    read steps regexAllowed '/' ⟨cs, offset⟩ =
      some (behind (Lexer.readSlash regexAllowed cs) ⟨cs, offset⟩) := by
  have hregex : readRegex steps "" false ⟨cs, offset⟩ =
      some (behind (Lexer.readRegex cs) ⟨cs, offset⟩) := by
    rw [readRegex_eq cs h, regexOutcome_eq]
  rw [read]
  cases cs with
  | nil =>
    unfold Lexer.readSlash
    cases regexAllowed with
    | false => rfl
    | true => exact hregex
  | cons c cs =>
    rw [Lexer.readSlash_cons, Input.peek?_mk, List.head?_cons]
    simp only [Option.some.injEq]
    split
    · exact readLineComment_eq (Nat.lt_of_succ_lt h) c offset
    split
    · exact readBlockComment_eq cs offset (Nat.lt_of_succ_lt h) c
    split
    · exact hregex
    · rfl

/-- Whatever a token begins with, it is read as far as it is in the whole text. -/
theorem read_eq {steps : Nat} {cs : List Char} (h : cs.length < steps) (regexAllowed : Bool)
    (c : Char) (offset : Nat) :
    read steps regexAllowed c ⟨cs, offset⟩ =
      some (behind (Lexer.read regexAllowed c cs) ⟨cs, offset⟩) := by
  by_cases hdot : c = '.'
  · subst hdot
    exact readDot_eq h regexAllowed offset
  by_cases hslash : c = '/'
  · subst hslash
    exact readSlash_eq h regexAllowed offset
  unfold read
  split
  case h_10 =>
    cases cs with
    | nil => rfl
    | cons d cs =>
      by_cases harrow : d = '>'
      · subst harrow
        rfl
      · have hpunct : Lexer.read regexAllowed '=' (d :: cs) = (.punct '=', 0) := by
          simp [Lexer.read, harrow]
        rw [Input.peek?_mk, List.head?_cons, if_neg fun h => harrow (Option.some.inj h), hpunct]
        rfl
  case h_11 => exact absurd rfl hdot
  case h_12 => exact absurd rfl hslash
  case h_13 => exact readQuoted_eq_behind (.inl rfl) h offset
  case h_14 => exact readQuoted_eq_behind (.inr rfl) h offset
  case h_15 => exact readTemplate_eq_behind h offset
  case h_16 =>
    rw [Lexer.read]
    · split
      · exact readWhitespace_eq h offset
      split
      · exact readIdentifier_eq h c offset
      split
      · exact readNumber_eq h c offset
      · rfl
    all_goals assumption
  all_goals rfl

/-- The token at some characters, and the input behind it. -/
theorem nextToken_cons {steps : Nat} {c : Char} {cs : List Char} (h : cs.length < steps)
    {regexAllowed : Bool} {kind : TokenKind} {length : Nat}
    (hr : Lexer.read regexAllowed c cs = (kind, length)) (offset : Nat) :
    nextToken steps regexAllowed ⟨c :: cs, offset⟩ =
      let stop := offset + utf8Length (c :: cs.take length)
      some (⟨kind, ⟨offset, stop⟩⟩, ⟨cs.drop length, stop⟩) := by
  have hread := read_eq h regexAllowed c (offset + c.utf8Size)
  rw [hr, behind, Input.advanceBy_eq, Nat.add_assoc] at hread
  simp only [nextToken, Input.next?, hread]
  rfl

/-- The readers keep the offset that the lexer of the whole text counts. -/
theorem tokensFrom_eq {steps : Nat} (cs : List Char) (h : cs.length < steps) (rule : SlashRule)
    (last : Option TokenKind) (offset : Nat) :
    tokensFrom steps rule last ⟨cs, offset⟩ = some (lexFrom rule last offset cs) := by
  obtain ⟨steps, rfl⟩ := Nat.exists_eq_add_one_of_ne_zero (Nat.ne_zero_of_lt h)
  cases cs with
  | nil =>
    rw [tokensFrom, lexFrom_nil]
    rfl
  | cons c cs =>
    have hsteps : cs.length < steps := Nat.lt_of_succ_lt_succ h
    rcases hr : Lexer.read (rule.allowsRegex last) c cs with ⟨kind, length⟩
    have hkind : kind ≠ .endOfText := by
      have := Lexer.read_ne_endOfText (rule.allowsRegex last) c cs
      rwa [hr] at this
    rw [tokensFrom, nextToken_cons hsteps hr, lexFrom_cons _ _ _ _ _ hr]
    simp only [Option.bind_eq_bind, Option.bind_some, if_neg hkind]
    rw [tokensFrom_eq (cs.drop length) (length_drop_lt hsteps length) rule]
    rfl
termination_by steps

theorem lexWithin_eq {steps : Nat} {source : String} (h : source.length < steps)
    (rule : SlashRule) : lexWithin steps rule source = some (Script.lex rule source) :=
  tokensFrom_eq source.toList h rule none 0

theorem lex_eq (rule : SlashRule) (source : String) :
    lex rule source = some (Script.lex rule source) :=
  lexWithin_eq (Nat.lt_succ_self _) rule

/-- The lexer ends, and its tokens lie end to end: the first one starts at the start of the text,
all but the last one have a text of at least one character, and the last one alone is the token at
the end. A step for each character and one more are enough, and it finds the same with any others to
spare. -/
theorem lex_tiles (rule : SlashRule) (source : String) :
    ∃ ts, lex rule source = some ts ∧ Tiles source ts ∧
      ∀ spare, lexWithin (source.length + 1 + spare) rule source = some ts :=
  ⟨_, lex_eq rule source, tiles_lex rule source,
    fun spare => lexWithin_eq (Nat.lt_add_right spare (Nat.lt_succ_self _)) rule⟩

end DesignTokens.Script.Offsets
