import DesignTokens.Proofs.Script.Delimiters
import DesignTokens.Proofs.Script.Trivia

/-! # Regular expressions among the tokens

Where an operand is expected a regular expression is one token, and what its body holds is no
delimiter, quote or comment to the checks before reading. Behind a word the slash divides, so that
this fails behind the words that an operand follows. -/
namespace DesignTokens.Script
open Text (utf8Length utf8Length_append splitAt?_utf8Length)
open TokenKind (IsUnterminated)

/-- What stands between the brackets of a character class. -/
inductive IsClassText : List Char → Prop
  | nil : IsClassText []
  | char {c : Char} {cs : List Char} (hc : c ≠ ']' ∧ c ≠ '\\' ∧ c ≠ '\n') (h : IsClassText cs) :
      IsClassText (c :: cs)
  | escaped {c : Char} {cs : List Char} (hc : c ≠ '\n') (h : IsClassText cs) :
      IsClassText ('\\' :: c :: cs)

/-- Characters on one line, each slash of which is escaped or inside of a character class. -/
inductive IsPattern : List Char → Prop
  | nil : IsPattern []
  | char {c : Char} {cs : List Char} (hc : c ≠ '/' ∧ c ≠ '[' ∧ c ≠ '\\' ∧ c ≠ '\n')
      (h : IsPattern cs) : IsPattern (c :: cs)
  | escaped {c : Char} {cs : List Char} (hc : c ≠ '\n') (h : IsPattern cs) :
      IsPattern ('\\' :: c :: cs)
  | charClass {inside cs : List Char} (hi : IsClassText inside) (h : IsPattern cs) :
      IsPattern ('[' :: (inside ++ ']' :: cs))

/-- What may stand between the slashes: with nothing there, or a star first, they open a comment. -/
structure IsRegexBody (body : List Char) : Prop where
  isPattern : IsPattern body
  ne_nil : body ≠ []
  head_ne_star : body.head? ≠ some '*'

/-- The words that an operand follows. -/
def operandWords : List String :=
  ["return", "typeof", "case", "in", "of", "void", "delete", "throw", "new", "await", "yield"]

/-- An operand is expected at the start of a text and behind these tokens. -/
inductive ExpectsOperand : Option TokenKind → Prop
  | start : ExpectsOperand none
  | opener (d : Delimiter) : ExpectsOperand (some (.opener d))
  | comma : ExpectsOperand (some .comma)
  | colon : ExpectsOperand (some .colon)
  | semicolon : ExpectsOperand (some .semicolon)
  | arrow : ExpectsOperand (some .arrow)
  | spread : ExpectsOperand (some .spread)
  | operator (c : Char) : ExpectsOperand (some (.punct c))
  | word {name : String} (h : name ∈ operandWords) : ExpectsOperand (some (.identifier name))

/-- Of the places where an operand is expected, those behind a word allow no regular expression. -/
theorem ExpectsOperand.allowsRegex_iff {last : Option TokenKind} (h : ExpectsOperand last) :
    SlashRule.byContext.allowsRegex last ↔ ¬∃ name, last = some (.identifier name) := by
  cases h <;> simp [SlashRule.allowsRegex, TokenKind.endsOperand]

namespace Extent

/-- A slash inside of a character class is passed over. -/
theorem ofRegex_class {inside : List Char} (h : IsClassText inside) (cs : List Char) :
    ofRegex true (inside ++ ']' :: cs) = (ofRegex false cs).more (inside.length + 1) := by
  induction h with
  | nil =>
    rw [List.nil_append, ofRegex_cons _ (by decide), if_neg (by decide), if_pos rfl]
    rfl
  | @char c inside hc h ih =>
    have hslash : ¬(c = '/' ∧ true = false) := by simp
    rw [List.cons_append, ofRegex_cons _ hc.2.1, if_neg hc.1, if_neg hslash, if_neg hc.2.2, ih,
      ite_self, more_more, List.length_cons]
    congr 1
    omega
  | @escaped c inside hc h ih =>
    rw [List.cons_append, List.cons_append, ofRegex_escaped, ih, more_more, List.length_cons,
      List.length_cons]
    congr 1
    omega

/-- A regular expression ends behind the slash that follows its body. -/
theorem ofRegex_pattern {body : List Char} (h : IsPattern body) (cs : List Char) :
    ofRegex false (body ++ '/' :: cs) = ⟨true, body.length + 1⟩ := by
  induction h with
  | nil =>
    rw [List.nil_append, ofRegex_cons _ (by decide), if_neg (by decide), if_neg (by decide),
      if_pos ⟨rfl, rfl⟩]
    rfl
  | @char c body hc h ih =>
    have hslash : ¬(c = '/' ∧ false = false) := fun h => hc.1 h.1
    rw [List.cons_append, ofRegex_cons _ hc.2.2.1, if_neg hc.2.1, if_neg hslash,
      if_neg hc.2.2.2, ih, ite_self]
    simp only [more, List.length_cons, Extent.mk.injEq, true_and]
    omega
  | @escaped c body hc h ih =>
    rw [List.cons_append, List.cons_append, ofRegex_escaped, ih]
    simp only [more, List.length_cons, Extent.mk.injEq, true_and]
    omega
  | @charClass inside body hi h ih =>
    rw [List.cons_append, List.append_assoc, List.cons_append, ofRegex_cons _ (by decide),
      if_pos rfl, ofRegex_class hi, ih]
    simp only [more, List.length_cons, List.length_append, Extent.mk.injEq, true_and]
    omega

end Extent

namespace Lexer
variable {body flags rest : List Char}

private theorem readRegex_pattern (hbody : IsPattern body) (hflags : ∀ c ∈ flags, c.isAlpha)
    (hrest : ∀ c ∈ rest.head?, c.isAlpha = false) :
    readRegex (body ++ '/' :: (flags ++ rest)) =
      (.regex (String.ofList body), (body ++ '/' :: flags).length) := by
  have hbehind : (flags ++ rest).takeWhile Char.isAlpha = flags := by
    rw [List.takeWhile_append_of_pos hflags]
    cases rest with
    | nil => rw [List.takeWhile_nil, List.append_nil]
    | cons c rest => rw [List.takeWhile_cons_of_neg (by simp [hrest c rfl]), List.append_nil]
  have hdrop : (body ++ '/' :: (flags ++ rest)).drop (body.length + 1) = flags ++ rest := by
    rw [List.append_cons, List.drop_left' (by simp)]
  have hlength : (body ++ '/' :: flags).length = body.length + 1 + flags.length := by
    simp only [List.length_append, List.length_cons]
    omega
  simp only [readRegex, Extent.ofRegex_pattern hbody, if_true, Nat.add_sub_cancel, List.take_left,
    hdrop, hbehind, hlength]

/-- The slash before a body opens a regular expression just where one is allowed. -/
theorem read_regex (hbody : IsRegexBody body) (hflags : ∀ c ∈ flags, c.isAlpha)
    (hrest : ∀ c ∈ rest.head?, c.isAlpha = false) (regexAllowed : Bool) :
    read regexAllowed '/' ((body ++ '/' :: flags) ++ rest) =
      if regexAllowed then (.regex (String.ofList body), (body ++ '/' :: flags).length)
      else (.punct '/', 0) := by
  rw [List.append_assoc, List.cons_append, ← readRegex_pattern hbody.isPattern hflags hrest]
  obtain ⟨c, body, rfl⟩ := List.exists_cons_of_ne_nil hbody.ne_nil
  have hslash : c ≠ '/' := by
    rintro rfl
    have := hbody.isPattern
    cases this with
    | char hc => exact hc.1 rfl
  have hstar : c ≠ '*' := by
    rintro rfl
    exact hbody.head_ne_star rfl
  change readSlash regexAllowed _ = _
  rw [List.cons_append, readSlash_cons, if_neg hslash, if_neg hstar]

end Lexer

/-- The last tokens of a text are those of what stands behind the first ones. -/
theorem exists_lexFrom_of_append {rule : SlashRule} {last : Option TokenKind}
    {before cs : List Char} {ts us : List Token}
    (h : lexFrom rule last (utf8Length before) cs = ts ++ us) (hus : us ≠ []) :
    ∃ front rest, cs = front ++ rest ∧
      us = lexFrom rule ((meanings ts).getLast?.or last) (utf8Length (before ++ front)) rest := by
  induction ts generalizing last before cs with
  | nil =>
    refine ⟨[], cs, rfl, ?_⟩
    rw [List.append_nil]
    exact h.symm
  | cons t ts ih =>
    cases cs with
    | nil =>
      rw [lexFrom_nil, List.cons_append, List.cons.injEq] at h
      exact absurd (List.append_eq_nil_iff.1 h.2.symm).2 hus
    | cons c cs =>
      rcases hr : Lexer.read (rule.allowsRegex last) c cs with ⟨kind, n⟩
      rw [lexFrom_behind before hr, List.cons_append, List.cons.injEq] at h
      obtain ⟨rfl, h⟩ := h
      obtain ⟨front, rest, hcs, hrest⟩ := ih h
      refine ⟨c :: cs.take n ++ front, rest, ?_, ?_⟩
      · rw [List.append_assoc, ← hcs, List.cons_append, List.take_append_drop]
      · rw [hrest, ← List.append_assoc]
        congr 1
        cases hk : kind.isTrivia with
        | true => simp [meanings, hk, lastAfter]
        | false => simp [meanings, hk, lastAfter, List.getLast?_cons]

/-- The tokens that begin at some place of a text are those of what stands behind it there. -/
theorem lexFrom_of_append {rule : SlashRule} {source : String} {before rest : List Char}
    {ts us : List Token} (hsource : source.toList = before ++ rest)
    (hlex : lex rule source = ts ++ us)
    (hstart : us.head?.map (·.span.start) = some (utf8Length before)) :
    us = lexFrom rule (meanings ts).getLast? (utf8Length before) rest := by
  have hus : us ≠ [] := by
    rintro rfl
    cases hstart
  have hall : lexFrom rule none (utf8Length []) source.toList = ts ++ us := hlex
  obtain ⟨front, behind, hsplit, hbehind⟩ := exists_lexFrom_of_append hall hus
  rw [List.nil_append, Option.or_none] at hbehind
  have hhead := (cuts_lexFrom rule (meanings ts).getLast? front behind).head?
  rw [← hbehind, hstart] at hhead
  have hparts := splitAt?_utf8Length front behind
  rw [← hsplit, hsource, ← Option.some.inj hhead, splitAt?_utf8Length] at hparts
  obtain ⟨rfl, rfl⟩ := Prod.mk.inj (Option.some.inj hparts)
  exact hbehind

namespace Nest

/-- Only the delimiters among tokens decide whether one of them does not fit or stays open, behind
groups that are open in the same way. -/
theorem build_eq_error_iff {pending pending' : List Pending} (h : opens pending = opens pending')
    (done done' : List Nest) (ts : List Token) (fault : Fault) :
    build pending done ts = .error fault ↔ build pending' done' (delimiters ts) = .error fault := by
  induction ts generalizing pending pending' done done' with
  | nil =>
    cases pending with
    | nil =>
      obtain rfl : pending' = [] := List.map_eq_nil_iff.1 h.symm
      simp [delimiters, build]
    | cons innermost outer =>
      obtain ⟨innermost', outer', rfl, hinnermost, -⟩ := List.map_eq_cons_iff.1 h.symm
      have hopening := congrArg Prod.snd hinnermost
      dsimp only at hopening
      simp [delimiters, build, hopening]
  | cons t ts ih =>
    obtain ⟨kind, span⟩ := t
    cases kind with
    | opener d =>
      have hopens : opens (⟨d, span, done⟩ :: pending) = opens (⟨d, span, done'⟩ :: pending') :=
        congrArg ((d, span) :: ·) h
      exact ih hopens _ _
    | closer d =>
      cases pending with
      | nil =>
        obtain rfl : pending' = [] := List.map_eq_nil_iff.1 h.symm
        exact Iff.rfl
      | cons innermost outer =>
        obtain ⟨innermost', outer', rfl, hinnermost, houter⟩ := List.map_eq_cons_iff.1 h.symm
        have hdelimiter := congrArg Prod.fst hinnermost
        dsimp only at hdelimiter
        change build _ _ _ = _ ↔ build _ _ (_ :: delimiters ts) = _
        simp only [build, hdelimiter]
        split
        · exact ih houter.symm _ _
        · exact Iff.rfl
    | _ => exact ih h _ _

theorem ofTokens_eq_error_iff (ts : List Token) (fault : Fault) :
    ofTokens ts = .error fault ↔ ofTokens (delimiters ts) = .error fault :=
  build_eq_error_iff rfl [] [] ts fault

end Nest

theorem checked_eq_error_iff (ts : List Token) (fault : Fault) :
    checked ts = .error fault ↔
      unterminated? ts = some fault ∨
        unterminated? ts = none ∧ Nest.ofTokens ts = .error fault := by
  rw [checked]
  cases unterminated? ts with
  | some fault' => simp
  | none => cases Nest.ofTokens ts <;> simp

/-- A token that is no delimiter and is terminated is of no account to the checks. -/
theorem atFault_insert {t : Token} (hd : t.kind.isDelimiter = false)
    (hterm : ¬IsUnterminated t.kind) (ts us : List Token) (fault : Fault) :
    AtFault (ts ++ t :: us) fault ↔ AtFault (ts ++ us) fault := by
  have hliterals : unterminated? (ts ++ t :: us) = unterminated? (ts ++ us) := by
    induction ts with
    | nil =>
      obtain ⟨kind, span⟩ := t
      cases kind with
      | unterminated literal => exact absurd ⟨literal, rfl⟩ hterm
      | _ => rfl
    | cons t' ts ih =>
      obtain ⟨kind, span⟩ := t'
      cases kind with
      | unterminated literal => rfl
      | _ => exact ih
  have hdelimiters : delimiters (significant (ts ++ t :: us)) =
      delimiters (significant (ts ++ us)) := by
    simp [delimiters, significant, List.filter_filter, hd]
  rw [atFault_iff, atFault_iff, checked_eq_error_iff, checked_eq_error_iff,
    unterminated?_significant, unterminated?_significant, hliterals, Nest.ofTokens_eq_error_iff,
    hdelimiters, ← Nest.ofTokens_eq_error_iff]

/-- Where tokens end in front of a regular expression and an operand is expected behind them, the
next token is the regular expression with its flags, unless they end in a word; the script is at
fault just as the other tokens are. -/
theorem regex_is_token {source : String} {before body flags rest : List Char} {ts us : List Token}
    (hsource : source.toList = before ++ '/' :: ((body ++ '/' :: flags) ++ rest))
    (hlex : lex .byContext source = ts ++ us)
    (hstart : us.head?.map (·.span.start) = some (utf8Length before))
    (hlast : ExpectsOperand (meanings ts).getLast?) (hbody : IsRegexBody body)
    (hflags : ∀ c ∈ flags, c.isAlpha) (hrest : ∀ c ∈ rest.head?, c.isAlpha = false) :
    let t : Token := ⟨.regex (String.ofList body),
      ⟨utf8Length before, utf8Length (before ++ '/' :: (body ++ '/' :: flags))⟩⟩
    (us.head? = some t ↔ ¬∃ name, (meanings ts).getLast? = some (.identifier name)) ∧
      ∀ us', us = t :: us' →
        ∀ fault, AtFault (lex .byContext source) fault ↔ AtFault (ts ++ us') fault := by
  dsimp only
  have hbehind := lexFrom_of_append hsource hlex hstart
  refine ⟨?_, ?_⟩
  · have hread := Lexer.read_regex hbody hflags hrest
      (SlashRule.byContext.allowsRegex (meanings ts).getLast?)
    rw [← hlast.allowsRegex_iff]
    cases hallowed : SlashRule.byContext.allowsRegex (meanings ts).getLast? with
    | true =>
      rw [hallowed, if_pos rfl] at hread
      rw [hbehind, lexFrom_behind before (hallowed ▸ hread), List.take_left]
      simp
    | false =>
      rw [hallowed, if_neg (by simp)] at hread
      rw [hbehind, lexFrom_behind before (hallowed ▸ hread)]
      simp
  · rintro us' rfl fault
    rw [hlex]
    exact atFault_insert rfl (by rintro ⟨literal, h⟩; cases h) ts us' fault

/-- A class that holds a slash and a quote, and a slash that is escaped. -/
def quoteBody : List Char := ['[', '/', '\'', ']', '\\', '/']

theorem isRegexBody_quoteBody : IsRegexBody quoteBody where
  isPattern := .charClass (.char (by decide) (.char (by decide) .nil))
    (.escaped (by decide) .nil)
  ne_nil := by decide
  head_ne_star := by decide

/-- The comment before the regular expression is passed over, and its quote opens nothing. -/
theorem regex_is_token_quote :
    ExpectsOperand (some (.opener .bracket)) ∧ IsRegexBody quoteBody ∧
      ∃ us, lex .byContext "[/*'*/ /[/']\\//g]" =
          [⟨.opener .bracket, ⟨0, 1⟩⟩, ⟨.comment "'", ⟨1, 6⟩⟩, ⟨.whitespace, ⟨6, 7⟩⟩] ++
            ⟨.regex (String.ofList quoteBody), ⟨7, 16⟩⟩ :: us ∧
        ∀ fault, AtFault (lex .byContext "[/*'*/ /[/']\\//g]") fault ↔
          AtFault ([⟨.opener .bracket, ⟨0, 1⟩⟩, ⟨.comment "'", ⟨1, 6⟩⟩, ⟨.whitespace, ⟨6, 7⟩⟩] ++
            us) fault := by
  have hlex : lex .byContext "[/*'*/ /[/']\\//g]" =
      [⟨.opener .bracket, ⟨0, 1⟩⟩, ⟨.comment "'", ⟨1, 6⟩⟩, ⟨.whitespace, ⟨6, 7⟩⟩] ++
        [⟨.regex (String.ofList quoteBody), ⟨7, 16⟩⟩, ⟨.closer .bracket, ⟨16, 17⟩⟩,
          ⟨.endOfText, ⟨17, 17⟩⟩] := by
    decide +kernel
  have hsource : "[/*'*/ /[/']\\//g]".toList =
      "[/*'*/ ".toList ++ '/' :: ((quoteBody ++ '/' :: ['g']) ++ [']']) := by decide
  have h := regex_is_token hsource hlex (by decide) (.opener .bracket) isRegexBody_quoteBody
    (by simp) (by simp)
  exact ⟨.opener .bracket, isRegexBody_quoteBody, _, hlex, h.2 _ rfl⟩

/-- Behind a word that an operand follows, the quote in the body opens a string. -/
theorem regex_behind_word :
    ExpectsOperand (some (.identifier "return")) ∧ IsRegexBody ['\''] ∧
      lex .byContext "return /'/" =
        [⟨.identifier "return", ⟨0, 6⟩⟩, ⟨.whitespace, ⟨6, 7⟩⟩, ⟨.punct '/', ⟨7, 8⟩⟩,
          ⟨.unterminated .string, ⟨8, 10⟩⟩, ⟨.endOfText, ⟨10, 10⟩⟩] := by
  refine ⟨.word (by decide), ⟨.char (by decide) .nil, by decide, by decide⟩, ?_⟩
  decide +kernel

end DesignTokens.Script
