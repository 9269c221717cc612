import DesignTokens.Proofs.Script.Escapes
import DesignTokens.Script.Offsets

/-! # Literals read by offset

Each reader that takes one character after the other finds what the reader of the whole text finds,
and leaves the offset behind the characters it has taken. -/
namespace DesignTokens.Script.Offsets
open Extent (ofFrames ofFrames_passed)
open Text (utf8Length isBlank)

namespace Input

@[simp] theorem peek?_mk (cs : List Char) (offset : Nat) : peek? ⟨cs, offset⟩ = cs.head? := rfl

private theorem advanceBy_cons (count : Nat) (c : Char) (cs : List Char) (offset : Nat) :
    advanceBy (count + 1) ⟨c :: cs, offset⟩ = advanceBy count ⟨cs, offset + c.utf8Size⟩ := rfl

private theorem advanceBy_nil (count offset : Nat) :
    advanceBy count ⟨[], offset⟩ = ⟨[], offset⟩ := by
  induction count with
  | zero => rfl
  | succ count ih => exact ih

/-- The offset grows by the size of what was passed. -/
theorem advanceBy_eq (count : Nat) (cs : List Char) (offset : Nat) :
    advanceBy count ⟨cs, offset⟩ =
      ⟨cs.drop count, offset + utf8Length (cs.take count)⟩ := by
  induction count generalizing cs offset with
  | zero => rfl
  | succ count ih =>
    cases cs with
    | nil =>
      rw [advanceBy_nil]
      rfl
    | cons c cs =>
      rw [advanceBy_cons, ih, Nat.add_assoc]
      rfl

theorem advanceBy_advanceBy (m n : Nat) (s : Input) :
    advanceBy n (advanceBy m s) = advanceBy (m + n) s := by
  induction m generalizing s with
  | zero => rw [Nat.zero_add]; rfl
  | succ m ih => rw [Nat.add_right_comm]; exact ih s.advance

end Input

theorem append_ofList_cons (text : String) (c : Char) (cs : List Char) :
    text ++ String.ofList (c :: cs) = text.push c ++ String.ofList cs := by
  apply String.toList_inj.1
  simp

theorem append_ofList_singleton (text : String) (c : Char) :
    text ++ String.ofList [c] = text.push c := by
  rw [append_ofList_cons]
  simp

theorem readWhile_eq (p : Char → Bool) {steps : Nat} {cs : List Char} (h : cs.length < steps)
    (text : String) (offset : Nat) :
    readWhile p steps text ⟨cs, offset⟩ = some (text ++ String.ofList (cs.takeWhile p),
      Input.advanceBy (cs.takeWhile p).length ⟨cs, offset⟩) := by
  induction cs generalizing steps text offset with
  | nil =>
    obtain ⟨steps, rfl⟩ := Nat.exists_eq_add_one_of_ne_zero (Nat.ne_zero_of_lt h)
    rw [readWhile]
    simp [Input.peek?, Input.advanceBy]
  | cons c cs ih =>
    obtain ⟨steps, rfl⟩ := Nat.exists_eq_add_one_of_ne_zero (Nat.ne_zero_of_lt h)
    rw [readWhile]
    simp only [Input.peek?, List.head?_cons]
    by_cases hc : p c
    · rw [if_pos hc, List.takeWhile_cons_of_pos hc, append_ofList_cons]
      exact ih (Nat.lt_of_succ_lt_succ h) (text.push c) (offset + c.utf8Size)
    · rw [if_neg hc, List.takeWhile_cons_of_neg hc]
      simp [Input.advanceBy]

theorem readWhitespace_eq {steps : Nat} {cs : List Char} (h : cs.length < steps) (offset : Nat) :
    readWhitespace steps ⟨cs, offset⟩ = some (.whitespace,
      Input.advanceBy (cs.takeWhile isBlank).length ⟨cs, offset⟩) := by
  rw [readWhitespace, readWhile_eq isBlank h]
  rfl

theorem readLineComment_eq {steps : Nat} {cs : List Char} (h : cs.length < steps) (c : Char)
    (offset : Nat) :
    readLineComment steps ⟨c :: cs, offset⟩ = some ((Lexer.readLineComment cs).1,
      Input.advanceBy ((Lexer.readLineComment cs).2 + 1) ⟨c :: cs, offset⟩) := by
  have hbehind : (Input.mk (c :: cs) offset).advance = ⟨cs, offset + c.utf8Size⟩ := rfl
  rw [readLineComment, hbehind, readWhile_eq _ h]
  simp [Lexer.readLineComment, trimmed]
  rfl

variable (cs : List Char) (offset : Nat)

private theorem two_le_length_ofBlockComment (h : (Extent.ofBlockComment cs).closed) :
    2 ≤ (Extent.ofBlockComment cs).length := by
  induction cs using Extent.ofBlockComment.induct with
  | case1 => cases h
  | case2 => exact Nat.le_refl 2
  | case3 c cs hne ih =>
    rw [Extent.ofBlockComment] at h ⊢
    · exact Nat.le_add_left_of_le (ih h)
    · exact hne
    · exact hne

theorem readBraced_eq :
    readBraced ⟨'\x7b' :: cs, offset⟩ =
      match Escape.braced? ('\x7b' :: cs) with
      | none => (none, ⟨'\x7b' :: cs, offset⟩)
      | some spelled =>
        (some spelled.code, Input.advanceBy spelled.length ⟨'\x7b' :: cs, offset⟩) := by
  have hdigits : (cs.takeWhile Escape.isHexDigit).length ≤ cs.length :=
    (List.takeWhile_prefix _).length_le
  have hbehind : cs[(cs.takeWhile Escape.isHexDigit).length]? =
      (cs.drop (cs.takeWhile Escape.isHexDigit).length).head? := by
    rw [List.head?_drop]
  simp only [readBraced, Escape.braced?, List.drop_succ_cons, List.drop_zero,
    List.getElem?_cons_succ, hbehind]
  generalize cs.drop (cs.takeWhile Escape.isHexDigit).length = behind
  generalize cs.takeWhile Escape.isHexDigit = digits
  cases digits with
  | nil => simp
  | cons d digits =>
    cases behind with
    | nil => simp
    | cons e behind =>
      by_cases he : e = '\x7d'
      · subst he
        rw [List.head?_cons, if_neg (by simp)]
        split <;> rfl
      · simp [he]

theorem readUnicode_eq :
    readUnicode ⟨cs, offset⟩ =
      match Escape.unicode? cs with
      | none => (none, ⟨cs, offset⟩)
      | some (c, length) => (some c, Input.advanceBy length ⟨cs, offset⟩) := by
  have hcode : (if Input.peek? ⟨cs, offset⟩ = some '\x7b' then readBraced ⟨cs, offset⟩
      else readHex 4 ⟨cs, offset⟩) =
      match Escape.codePoint? cs with
      | none => (none, ⟨cs, offset⟩)
      | some spelled => (some spelled.code, Input.advanceBy spelled.length ⟨cs, offset⟩) := by
    rw [Input.peek?_mk]
    by_cases hpeek : cs.head? = some '\x7b'
    · rw [if_pos hpeek]
      obtain ⟨rest, rfl⟩ := List.head?_eq_some_iff.1 hpeek
      exact readBraced_eq rest offset
    · have hdigits : Escape.codePoint? cs =
          (Escape.fixedHex? 4 cs).map fun code => ⟨code, 4⟩ := by
        rw [Escape.codePoint?]
        rintro rest rfl
        exact hpeek rfl
      rw [if_neg hpeek, hdigits]
      unfold readHex
      cases Escape.fixedHex? 4 cs <;> rfl
  unfold readUnicode
  rw [hcode, Escape.unicode?]
  cases Escape.codePoint? cs with
  | none => rfl
  | some spelled =>
    have hrest : (Input.advanceBy spelled.length ⟨cs, offset⟩).rest = cs.drop spelled.length := by
      rw [Input.advanceBy_eq]
    dsimp only [Option.map_some]
    rw [hrest]
    cases Escape.isHighSurrogate spelled.code with
    | false => rfl
    | true =>
      cases Escape.lowSurrogate? (cs.drop spelled.length) with
      | none => rfl
      | some low => rw [Input.advanceBy_advanceBy]

/-- An escape is read as far as it is decoded. -/
theorem readEscape_eq (text : String) (c : Char) :
    readEscape text c ⟨cs, offset⟩ =
      (text ++ String.ofList (Escape.value c cs).1,
        Input.advanceBy (Escape.value c cs).2 ⟨cs, offset⟩) := by
  unfold readEscape
  split
  case h_8 =>
    unfold readHex Escape.value
    cases Escape.fixedHex? 2 cs <;> exact Prod.ext (append_ofList_singleton text _).symm rfl
  case h_9 =>
    rw [readUnicode_eq]
    unfold Escape.value
    cases Escape.unicode? cs <;> exact Prod.ext (append_ofList_singleton text _).symm rfl
  case h_10 => simp [Escape.value, Input.advanceBy]
  case h_11 =>
    rw [Escape.value]
    · exact Prod.ext (append_ofList_singleton text _).symm rfl
    all_goals assumption
  all_goals exact Prod.ext (append_ofList_singleton text _).symm rfl

theorem readToCommentEnd_eq {steps : Nat} (h : cs.length < steps) (text : String) :
    readToCommentEnd steps text ⟨cs, offset⟩ =
      let e := Extent.ofBlockComment cs
      some (if e.closed then .comment (trimmed (text ++ String.ofList (cs.take (e.length - 2))))
        else .unterminated .blockComment, Input.advanceBy e.length ⟨cs, offset⟩) := by
  dsimp only
  induction cs using Extent.ofBlockComment.induct generalizing steps text offset with
  | case1 =>
    obtain ⟨steps, rfl⟩ := Nat.exists_eq_add_one_of_ne_zero (Nat.ne_zero_of_lt h)
    rw [readToCommentEnd]
    rfl
  | case2 cs =>
    obtain ⟨steps, rfl⟩ := Nat.exists_eq_add_one_of_ne_zero (Nat.ne_zero_of_lt h)
    rw [readToCommentEnd]
    simp [Extent.ofBlockComment, Input.next?, Input.advanceBy]
    rfl
  | case3 c cs hne ih =>
    obtain ⟨steps, rfl⟩ := Nat.exists_eq_add_one_of_ne_zero (Nat.ne_zero_of_lt h)
    have hopen : c = '*' → cs.head? ≠ some '/' := by
      intro hc hhead
      obtain ⟨rest, rfl⟩ := List.head?_eq_some_iff.1 hhead
      exact hne rest hc rfl
    have hmark : ¬(c = '*' ∧ Input.peek? ⟨cs, offset + c.utf8Size⟩ = some '/') :=
      fun h => hopen h.1 h.2
    rw [readToCommentEnd, Extent.ofBlockComment_cons _ hopen]
    simp only [Input.next?]
    rw [if_neg hmark, ih _ (Nat.lt_of_succ_lt_succ h)]
    have hlength : ((Extent.ofBlockComment cs).more 1).length =
        (Extent.ofBlockComment cs).length + 1 := Nat.add_comm _ _
    rw [hlength, Input.advanceBy_cons]
    cases hclosed : (Extent.ofBlockComment cs).closed with
    | false =>
      simp only [Extent.more, hclosed]
      rfl
    | true =>
      obtain ⟨n, hn⟩ := Nat.exists_eq_add_of_le' (two_le_length_ofBlockComment cs hclosed)
      have htake : (c :: cs).take (n + 2 + 1 - 2) = c :: cs.take (n + 2 - 2) := rfl
      rw [hn, htake, append_ofList_cons]
      simp only [Extent.more, hclosed]

theorem readBlockComment_eq {steps : Nat} (h : cs.length < steps) (c : Char) :
    readBlockComment steps ⟨c :: cs, offset⟩ = some ((Lexer.readBlockComment cs).1,
      Input.advanceBy ((Lexer.readBlockComment cs).2 + 1) ⟨c :: cs, offset⟩) := by
  have hread := readToCommentEnd_eq cs (offset + c.utf8Size) h ""
  dsimp only at hread
  rw [String.empty_append, trimmed, String.toList_ofList] at hread
  exact hread

/-- What an escape takes in behind its letter, with what is behind it. -/
structure EscapeCut (f : Extent.Frame) (c : Char) (cs xs rest : List Char) : Prop where
  split : cs = xs ++ rest
  length_eq : xs.length = (Escape.value c cs).2
  extent : ofFrames [f] ('\\' :: c :: xs ++ rest) =
    (ofFrames [f] rest).more ('\\' :: c :: xs).length
  decode (m : Nat) : Escape.decode ('\\' :: c :: xs ++ rest.take m) =
    (Escape.value c cs).1 ++ Escape.decode (rest.take m)
  opens (m : Nat) : Extent.interpolates ('\\' :: c :: xs ++ rest.take m) =
    Extent.interpolates (rest.take m)

theorem EscapeCut.length_le {f : Extent.Frame} {c : Char} {cs xs rest : List Char}
    (h : EscapeCut f c cs xs rest) : rest.length ≤ cs.length := by
  rw [h.split, List.length_append]
  omega

private theorem EscapeCut.length_lt {f : Extent.Frame} {c : Char} {cs xs rest : List Char}
    (h : EscapeCut f c cs xs rest) {steps : Nat} (hsteps : ('\\' :: c :: cs).length < steps + 1) :
    rest.length < steps := by
  have hle := h.length_le
  simp only [List.length_cons] at hsteps
  omega

/-- Where an escape stands, a literal goes on behind what it takes in, and its body is decoded
there. -/
theorem exists_escapeCut {f : Extent.Frame} (hf : f.IsText) (c : Char) (cs : List Char) :
    ∃ xs rest, EscapeCut f c cs xs rest := by
  obtain ⟨xs, rest, rfl, hlength, hpassed⟩ := Escape.exists_passed c cs
  have hescape : Escape.Passed ('\\' :: c :: xs) := .escaped c hpassed
  refine ⟨xs, rest, rfl, hlength, ofFrames_passed hf [] hescape rest, fun m => ?_,
    fun m => Extent.interpolates_passed hescape _⟩
  have hle : (Escape.value c (xs ++ rest)).2 ≤ xs.length + m := by omega
  have hvalue := Escape.value_take hle
  rw [List.take_length_add_append] at hvalue
  rw [List.cons_append, List.cons_append, Escape.decode_value (Prod.eta _).symm, hvalue, ← hlength,
    List.drop_left]

/-- What a literal is read as whose extent is known, and the input behind it. -/
def outcome (literal : LiteralKind) (kindOf : List Char → TokenKind) (e : Extent) (s : Input) :
    TokenKind × Input :=
  (if e.closed then kindOf (e.body s.rest) else .unterminated literal, s.advanceBy e.length)

/-- A literal is read on from behind some of its characters. -/
theorem outcome_more (literal : LiteralKind) {kindOf kindOf' : List Char → TokenKind} {e : Extent}
    (he : e.closed → 0 < e.length) (xs rest : List Char) (offset : Nat)
    (hkind : ∀ m, kindOf (xs ++ rest.take m) = kindOf' (rest.take m)) :
    outcome literal kindOf (e.more xs.length) ⟨xs ++ rest, offset⟩ =
      outcome literal kindOf' e ⟨rest, offset + utf8Length xs⟩ := by
  have hbehind : Input.advanceBy xs.length ⟨xs ++ rest, offset⟩ =
      ⟨rest, offset + utf8Length xs⟩ := by
    rw [Input.advanceBy_eq, List.drop_left, List.take_left]
  have hmore : (e.more xs.length).closed = e.closed := rfl
  rw [outcome, outcome, ← hbehind, Input.advanceBy_advanceBy, hbehind, hmore, Extent.length_more]
  cases hclosed : e.closed with
  | false => rfl
  | true =>
    rw [if_pos rfl, if_pos rfl, Extent.body_more (he hclosed)]
    exact congrArg (·, _) (hkind _)

def quotedOutcome (quote : Char) (text : String) (s : Input) : TokenKind × Input :=
  outcome .string (fun body => .string (text ++ String.ofList (Escape.decode body)))
    (Extent.ofQuoted quote s.rest) s

theorem append_ofList_append (text : String) (xs ys : List Char) :
    text ++ String.ofList (xs ++ ys) = text ++ String.ofList xs ++ String.ofList ys := by
  rw [String.ofList_append, String.append_assoc]

private theorem quotedOutcome_step {quote : Char} (xs : List Char) {rest ys : List Char}
    (hextent : ofFrames [.quoted quote] (xs ++ rest) =
      (ofFrames [.quoted quote] rest).more xs.length)
    (hdecode : ∀ m, Escape.decode (xs ++ rest.take m) = ys ++ Escape.decode (rest.take m))
    (text : String) (offset : Nat) :
    quotedOutcome quote (text ++ String.ofList ys) ⟨rest, offset + utf8Length xs⟩ =
      quotedOutcome quote text ⟨xs ++ rest, offset⟩ := by
  rw [quotedOutcome, quotedOutcome, Extent.ofQuoted, Extent.ofQuoted, hextent]
  refine (outcome_more .string Extent.pos_of_closed xs rest offset fun m => ?_).symm
  rw [hdecode, append_ofList_append]

theorem readQuoted_eq {quote : Char} (hq : quote = '"' ∨ quote = '\'') {steps : Nat}
    (cs : List Char) (h : cs.length < steps) (text : String) (offset : Nat) :
    readQuoted steps quote text ⟨cs, offset⟩ = some (quotedOutcome quote text ⟨cs, offset⟩) := by
  obtain ⟨steps, rfl⟩ := Nat.exists_eq_add_one_of_ne_zero (Nat.ne_zero_of_lt h)
  have hb : '\\' ≠ quote := by rcases hq with rfl | rfl <;> decide
  have hn : '\n' ≠ quote := by rcases hq with rfl | rfl <;> decide
  have hframe : Extent.Frame.IsText (.quoted quote) := by
    refine .inr ⟨quote, ?_, rfl⟩
    rcases hq with rfl | rfl <;> decide
  cases cs with
  | nil =>
    rw [readQuoted, quotedOutcome, Extent.ofQuoted, ofFrames]
    rfl
  | cons c cs =>
    rw [readQuoted]
    simp only [Input.next?]
    by_cases hquote : c = quote
    · subst hquote
      rw [if_pos rfl, quotedOutcome, Extent.ofQuoted, Extent.ofFrames_quote, Extent.ofFrames_nil]
      simp [outcome, Extent.more, Extent.body, Escape.decode, Input.advanceBy, Input.advance,
        Input.next?]
    rw [if_neg hquote]
    by_cases hslash : c = '\\'
    · subst hslash
      rw [if_pos rfl]
      cases cs with
      | nil =>
        rw [quotedOutcome, Extent.ofQuoted, ofFrames.eq_def]
        simp [hb, outcome, Input.advanceBy, Input.advance, Input.next?]
      | cons d cs =>
        obtain ⟨xs, rest, hcut⟩ := exists_escapeCut hframe d cs
        have hle := hcut.length_le
        obtain rfl := hcut.split
        dsimp only
        rw [readEscape_eq, ← hcut.length_eq]
        dsimp only
        rw [Input.advanceBy_eq, List.drop_left, List.take_left,
          readQuoted_eq hq rest (hcut.length_lt h), Nat.add_assoc, Nat.add_assoc]
        exact congrArg some (quotedOutcome_step _ hcut.extent hcut.decode text offset)
    rw [if_neg hslash]
    by_cases hline : c = '\n'
    · subst hline
      rw [if_pos rfl, quotedOutcome, Extent.ofQuoted, Extent.ofFrames_lineEnd _ _ _ hn]
      rfl
    · have hextent : ofFrames [.quoted quote] ([c] ++ cs) =
          (ofFrames [.quoted quote] cs).more [c].length :=
        Extent.ofFrames_plain _ _ _ hquote hline hslash
      have hdecode (m : Nat) :
          Escape.decode ([c] ++ cs.take m) = [c] ++ Escape.decode (cs.take m) :=
        Escape.decode_raw hslash _
      rw [if_neg hline, readQuoted_eq hq cs (Nat.lt_of_succ_lt_succ h), ← append_ofList_singleton]
      exact congrArg some (quotedOutcome_step [c] hextent hdecode text offset)
termination_by steps

def templateKind (text : String) (interpolated : Bool) (body : List Char) : TokenKind :=
  .template (if interpolated || Extent.interpolates body then none
    else some (text ++ String.ofList (Escape.decode body)))

def templateOutcome (text : String) (interpolated : Bool) (s : Input) : TokenKind × Input :=
  outcome .template (templateKind text interpolated) (Extent.ofTemplate s.rest) s

private theorem templateOutcome_step (xs : List Char) {rest ys : List Char}
    (hextent : ofFrames [.template] (xs ++ rest) = (ofFrames [.template] rest).more xs.length)
    (hdecode : ∀ m, Escape.decode (xs ++ rest.take m) = ys ++ Escape.decode (rest.take m))
    (hopens : ∀ m, Extent.interpolates (xs ++ rest.take m) = Extent.interpolates (rest.take m))
    (text : String) (interpolated : Bool) (offset : Nat) :
    templateOutcome (text ++ String.ofList ys) interpolated ⟨rest, offset + utf8Length xs⟩ =
      templateOutcome text interpolated ⟨xs ++ rest, offset⟩ := by
  rw [templateOutcome, templateOutcome, Extent.ofTemplate, Extent.ofTemplate, hextent]
  refine (outcome_more .template Extent.pos_of_closed xs rest offset fun m => ?_).symm
  rw [templateKind, templateKind, hdecode, hopens, append_ofList_append]

private theorem advanceBy_more (e : Extent) (c : Char) (cs : List Char) (offset : Nat) :
    Input.advanceBy (e.more 1).length ⟨c :: cs, offset⟩ =
      Input.advanceBy e.length ⟨cs, offset + c.utf8Size⟩ := by
  rw [Extent.length_more, Nat.add_comm, Input.advanceBy_cons]

theorem length_drop_lt {cs : List Char} {steps : Nat} (h : cs.length < steps) (n : Nat) :
    (cs.drop n).length < steps := by
  rw [List.length_drop]
  omega

/-- Whether some open braces are closed, and the input behind the last of them. -/
def skipOutcome (openBraces : Nat) (s : Input) : Bool × Input :=
  let e := ofFrames (List.replicate openBraces .code) s.rest
  (e.closed, s.advanceBy e.length)

private theorem skipOutcome_step {openBraces openBraces' : Nat} (xs : List Char) {rest : List Char}
    (hextent : ofFrames (List.replicate openBraces .code) (xs ++ rest) =
      (ofFrames (List.replicate openBraces' .code) rest).more xs.length) (offset : Nat) :
    skipOutcome openBraces' ⟨rest, offset + utf8Length xs⟩ =
      skipOutcome openBraces ⟨xs ++ rest, offset⟩ := by
  have hbehind : Input.advanceBy xs.length ⟨xs ++ rest, offset⟩ =
      ⟨rest, offset + utf8Length xs⟩ := by
    rw [Input.advanceBy_eq, List.drop_left, List.take_left]
  rw [skipOutcome, skipOutcome, hextent, Extent.length_more, ← Input.advanceBy_advanceBy, hbehind]
  rfl

/-- Behind a literal inside of the braces the search goes on, if the literal is closed. -/
theorem skipOutcome_literal {literal : LiteralKind} {kindOf : List Char → TokenKind}
    (hkind : ∀ body, ¬(kindOf body).isUnterminated) {f : Extent.Frame} {openBraces : Nat}
    {c : Char} {cs : List Char}
    (hextent : ofFrames (List.replicate openBraces .code) (c :: cs) =
      (ofFrames (f :: List.replicate openBraces .code) cs).more 1) (offset : Nat)
    {next : Input → Option (Bool × Input)}
    (hnext : ∀ offset, next ⟨cs.drop (ofFrames [f] cs).length, offset⟩ =
      some (skipOutcome openBraces ⟨cs.drop (ofFrames [f] cs).length, offset⟩)) :
    (let r := outcome literal kindOf (ofFrames [f] cs) ⟨cs, offset + c.utf8Size⟩
      if r.1.isUnterminated then some (false, r.2) else next r.2) =
        some (skipOutcome openBraces ⟨c :: cs, offset⟩) := by
  have hinside : ofFrames (f :: List.replicate openBraces .code) cs =
      (ofFrames [f] cs).andThen cs (ofFrames (List.replicate openBraces .code)) :=
    Extent.ofFrames_append [f] _ cs
  rw [hinside, Extent.andThen] at hextent
  dsimp only [outcome]
  cases hclosed : (ofFrames [f] cs).closed with
  | false =>
    rw [hclosed, if_neg Bool.false_ne_true] at hextent
    have hopen : (TokenKind.unterminated literal).isUnterminated := rfl
    rw [if_neg Bool.false_ne_true, if_pos hopen, skipOutcome, hextent]
    exact congrArg some (Prod.ext hclosed.symm (advanceBy_more _ c cs offset).symm)
  | true =>
    have hle := Extent.length_ofFrames_le [f] cs
    have hlength : (c :: cs.take (ofFrames [f] cs).length).length =
        1 + (ofFrames [f] cs).length := by
      rw [List.length_cons, List.length_take_of_le hle, Nat.add_comm]
    have hsplit : c :: cs.take (ofFrames [f] cs).length ++ cs.drop (ofFrames [f] cs).length =
        c :: cs := by
      rw [List.cons_append, List.take_append_drop]
    rw [hclosed, if_pos rfl, Extent.more_more, ← hlength, ← hsplit] at hextent
    rw [if_pos rfl, if_neg (hkind _), Input.advanceBy_eq, hnext, Nat.add_assoc, ← hsplit]
    exact congrArg some (skipOutcome_step _ hextent offset)

/-- Behind an interpolation the template goes on, if the interpolation is closed. -/
theorem templateOutcome_interpolation (text : String) (interpolated : Bool) (cs : List Char)
    (offset : Nat) {next : Input → Option (TokenKind × Input)}
    (hnext : ∀ offset, next ⟨cs.drop (ofFrames [.code] cs).length, offset⟩ =
      some (templateOutcome text true ⟨cs.drop (ofFrames [.code] cs).length, offset⟩)) :
    (let r := skipOutcome 1 ⟨cs, offset + '$'.utf8Size + '\x7b'.utf8Size⟩
      if r.1 then next r.2 else some (.unterminated .template, r.2)) =
        some (templateOutcome text interpolated ⟨'$' :: '\x7b' :: cs, offset⟩) := by
  have hextent : ofFrames [.template] ('$' :: '\x7b' :: cs) =
      ((ofFrames [.code] cs).andThen cs (ofFrames [.template])).more 2 := by
    rw [Extent.ofFrames_interpolation, ← Extent.ofFrames_append]
    rfl
  have hskip (s : Input) : skipOutcome 1 s =
      ((ofFrames [.code] s.rest).closed, s.advanceBy (ofFrames [.code] s.rest).length) := rfl
  rw [Extent.andThen] at hextent
  dsimp only
  rw [hskip]
  cases hclosed : (ofFrames [.code] cs).closed with
  | false =>
    have hlength : ((ofFrames [.code] cs).more 2).length = (ofFrames [.code] cs).length + 2 :=
      Nat.add_comm _ _
    have hopen : ((ofFrames [.code] cs).more 2).closed = false := hclosed
    rw [hclosed, if_neg Bool.false_ne_true] at hextent
    rw [if_neg Bool.false_ne_true, templateOutcome, Extent.ofTemplate, hextent, outcome, hopen,
      hlength]
    rfl
  | true =>
    have hle := Extent.length_ofFrames_le [.code] cs
    have hsplit : '$' :: '\x7b' :: cs.take (ofFrames [.code] cs).length ++
        cs.drop (ofFrames [.code] cs).length = '$' :: '\x7b' :: cs := by
      rw [List.cons_append, List.cons_append, List.take_append_drop]
    have hlength : ('$' :: '\x7b' :: cs.take (ofFrames [.code] cs).length).length =
        2 + (ofFrames [.code] cs).length := by
      rw [List.length_cons, List.length_cons, List.length_take_of_le hle]
      omega
    rw [hclosed, if_pos rfl, Extent.more_more, ← hlength, ← hsplit] at hextent
    rw [if_pos rfl, Input.advanceBy_eq, hnext, Nat.add_assoc, Nat.add_assoc, ← hsplit,
      templateOutcome, templateOutcome, Extent.ofTemplate, Extent.ofTemplate, hextent]
    refine congrArg some (outcome_more (e := ofFrames [.template] _) .template
      Extent.pos_of_closed ('$' :: '\x7b' :: cs.take (ofFrames [.code] cs).length) _ offset
      fun m => ?_).symm
    simp [templateKind, Extent.interpolates]

mutual

theorem readTemplate_eq {steps : Nat} (cs : List Char) (h : cs.length < steps) (text : String)
    (interpolated : Bool) (offset : Nat) :
    readTemplate steps text interpolated ⟨cs, offset⟩ =
      some (templateOutcome text interpolated ⟨cs, offset⟩) := by
  obtain ⟨steps, rfl⟩ := Nat.exists_eq_add_one_of_ne_zero (Nat.ne_zero_of_lt h)
  have hframe : Extent.Frame.IsText .template := .inl rfl
  cases cs with
  | nil =>
    rw [readTemplate, templateOutcome, Extent.ofTemplate, ofFrames]
    rfl
  | cons c cs =>
    rw [readTemplate]
    simp only [Input.next?]
    by_cases hquote : c = '`'
    · subst hquote
      rw [if_pos rfl, templateOutcome, Extent.ofTemplate, Extent.ofFrames_backtick,
        Extent.ofFrames_nil]
      simp [outcome, templateKind, Extent.interpolates, Extent.more, Extent.body, Escape.decode,
        Input.advanceBy, Input.advance, Input.next?]
    rw [if_neg hquote]
    by_cases hslash : c = '\\'
    · subst hslash
      rw [if_pos rfl]
      cases cs with
      | nil =>
        rw [templateOutcome, Extent.ofTemplate, ofFrames.eq_def]
        rfl
      | cons d cs =>
        obtain ⟨xs, rest, hcut⟩ := exists_escapeCut hframe d cs
        have hle := hcut.length_le
        obtain rfl := hcut.split
        dsimp only
        rw [readEscape_eq, ← hcut.length_eq]
        dsimp only
        rw [Input.advanceBy_eq, List.drop_left, List.take_left,
          readTemplate_eq rest (hcut.length_lt h), Nat.add_assoc, Nat.add_assoc]
        exact congrArg some (templateOutcome_step _ hcut.extent hcut.decode hcut.opens text
          interpolated offset)
    rw [if_neg hslash, Input.peek?_mk]
    by_cases hopens : c = '$' ∧ cs.head? = some '\x7b'
    · obtain ⟨rfl, hbrace⟩ := hopens
      obtain ⟨cs, rfl⟩ := List.head?_eq_some_iff.1 hbrace
      rw [if_pos ⟨rfl, hbrace⟩]
      have hsteps : cs.length < steps := Nat.lt_of_succ_lt (Nat.lt_of_succ_lt_succ h)
      have hbehind (offset : Nat) : (Input.mk ('\x7b' :: cs) offset).advance =
          ⟨cs, offset + '\x7b'.utf8Size⟩ := rfl
      rw [hbehind, skipInterpolation_eq cs hsteps 0]
      exact templateOutcome_interpolation text interpolated cs offset
        fun offset => readTemplate_eq _ (length_drop_lt hsteps _) text true offset
    · have hstatic (m : Nat) : c = '$' → (cs.take m).head? ≠ some '\x7b' := by
        rintro rfl hbrace
        refine hopens ⟨rfl, ?_⟩
        cases m with
        | zero => simp at hbrace
        | succ m => rwa [List.head?_take, if_neg (Nat.succ_ne_zero m)] at hbrace
      have hextent : ofFrames [.template] ([c] ++ cs) =
          (ofFrames [.template] cs).more [c].length :=
        Extent.ofFrames_static _ _ hslash hquote fun hd hbrace => hopens ⟨hd, hbrace⟩
      have hdecode (m : Nat) :
          Escape.decode ([c] ++ cs.take m) = [c] ++ Escape.decode (cs.take m) :=
        Escape.decode_raw hslash _
      have hplain (m : Nat) : Extent.interpolates ([c] ++ cs.take m) =
          Extent.interpolates (cs.take m) :=
        Extent.interpolates_static hslash (hstatic m)
      rw [if_neg hopens, readTemplate_eq cs (Nat.lt_of_succ_lt_succ h), ← append_ofList_singleton]
      exact congrArg some (templateOutcome_step [c] hextent hdecode hplain text interpolated
        offset)
termination_by steps

theorem skipInterpolation_eq {steps : Nat} (cs : List Char) (h : cs.length < steps)
    (openBraces offset : Nat) :
    skipInterpolation steps (openBraces + 1) ⟨cs, offset⟩ =
      some (skipOutcome (openBraces + 1) ⟨cs, offset⟩) := by
  obtain ⟨steps, rfl⟩ := Nat.exists_eq_add_one_of_ne_zero (Nat.ne_zero_of_lt h)
  cases cs with
  | nil =>
    rw [skipInterpolation, skipOutcome, List.replicate_succ, ofFrames]
    rfl
  | cons c cs =>
    have hextent : ofFrames (List.replicate (openBraces + 1) .code) (c :: cs) =
        (ofFrames (Extent.Frame.enter (List.replicate openBraces .code) c) cs).more 1 := by
      rw [List.replicate_succ, Extent.ofFrames_code]
    have hsteps : cs.length < steps := Nat.lt_of_succ_lt_succ h
    rw [skipInterpolation]
    simp only [Input.next?]
    by_cases hopen : c = '\x7b'
    · subst hopen
      rw [if_pos rfl, skipInterpolation_eq cs hsteps (openBraces + 1)]
      exact congrArg some (skipOutcome_step ['\x7b'] hextent offset)
    rw [if_neg hopen]
    by_cases hclose : c = '\x7d'
    · subst hclose
      rw [if_pos rfl, Nat.add_sub_cancel]
      cases openBraces with
      | zero =>
        rw [if_pos rfl, skipOutcome, hextent]
        simp [Extent.Frame.enter, Extent.ofFrames_nil, Extent.more, Input.advanceBy, Input.advance,
          Input.next?]
      | succ openBraces =>
        rw [if_neg (Nat.succ_ne_zero _), skipInterpolation_eq cs hsteps openBraces]
        exact congrArg some (skipOutcome_step ['\x7d'] hextent offset)
    rw [if_neg hclose]
    by_cases hquote : c = '"' ∨ c = '\''
    · rw [if_pos hquote, readQuoted_eq hquote cs hsteps]
      have hinside : ofFrames (List.replicate (openBraces + 1) .code) (c :: cs) =
          (ofFrames (.quoted c :: List.replicate (openBraces + 1) .code) cs).more 1 := by
        rw [hextent]
        rcases hquote with rfl | rfl <;> rfl
      exact skipOutcome_literal (by simp [TokenKind.isUnterminated]) hinside offset
        fun offset => skipInterpolation_eq _ (length_drop_lt hsteps _) openBraces offset
    rw [if_neg hquote]
    by_cases hbacktick : c = '`'
    · subst hbacktick
      rw [if_pos rfl, readTemplate_eq cs hsteps]
      exact skipOutcome_literal (by simp [templateKind, TokenKind.isUnterminated]) hextent offset
        fun offset => skipInterpolation_eq _ (length_drop_lt hsteps _) openBraces offset
    · have hother : Extent.Frame.enter (List.replicate openBraces .code) c =
          List.replicate (openBraces + 1) .code := by
        unfold Extent.Frame.enter
        split <;> simp_all [List.replicate_succ]
      rw [hother] at hextent
      rw [if_neg hbacktick, skipInterpolation_eq cs hsteps openBraces]
      exact congrArg some (skipOutcome_step [c] hextent offset)
termination_by steps

end

end DesignTokens.Script.Offsets
