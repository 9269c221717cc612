import DesignTokens.Proofs.Script.Delimiters
import DesignTokens.Proofs.Script.Trivia

/-! # Line ends of two characters

Where a carriage return is put before each line feed, whitespace and comments stay what they are,
and so does every other token that holds no line feed. A literal that is not terminated stays so: no
literal is closed by it. Only a literal that holds an escaped line feed is not what it was. -/
namespace DesignTokens.Script
open Text (isBlank utf8Length)
open TokenKind (IsUnterminated)

/-- A text with a carriage return before each line feed. -/
def withReturns (cs : List Char) : List Char :=
  cs.flatMap fun c => if c = '\n' then ['\r', '\n'] else [c]

theorem withReturns_lineFeed (cs : List Char) :
    withReturns ('\n' :: cs) = '\r' :: '\n' :: withReturns cs := rfl

theorem withReturns_cons {c : Char} (hc : c ≠ '\n') (cs : List Char) :
    withReturns (c :: cs) = c :: withReturns cs := by
  rw [withReturns, List.flatMap_cons, if_neg hc]
  rfl

theorem withReturns_append (xs ys : List Char) :
    withReturns (xs ++ ys) = withReturns xs ++ withReturns ys :=
  List.flatMap_append

theorem withReturns_eq_self {cs : List Char} (h : '\n' ∉ cs) : withReturns cs = cs := by
  induction cs with
  | nil => rfl
  | cons c cs ih =>
    rw [List.mem_cons, not_or] at h
    rw [withReturns_cons (Ne.symm h.1), ih h.2]

/-- No text begins with another character than it did, but for a carriage return. -/
theorem head?_withReturns_ne {d : Char} (hd : d ≠ '\r') {cs : List Char} (h : cs.head? ≠ some d) :
    (withReturns cs).head? ≠ some d := by
  cases cs with
  | nil => exact h
  | cons c cs =>
    by_cases hc : c = '\n'
    · subst hc
      rw [withReturns_lineFeed, List.head?_cons]
      exact fun hr => hd (Option.some.inj hr).symm
    · rw [withReturns_cons hc]
      exact h

private theorem forall_mem_withReturns {cs : List Char} (h : ∀ c ∈ cs, isBlank c) :
    ∀ c ∈ withReturns cs, isBlank c := by
  intro c hc
  obtain ⟨d, hd, hcd⟩ := List.mem_flatMap.1 hc
  split at hcd
  · have hcd : c = '\r' ∨ c = '\n' := by simpa using hcd
    rcases hcd with rfl | rfl <;> rfl
  · rw [List.mem_singleton.1 hcd]
    exact h d hd

namespace Extent

/-- No frame is left in a text with returns that is not left in the text without them. -/
theorem closed_ofFrames_withReturns {frames : List Frame} (hf : ∀ f ∈ frames, f.HoldsBlanks)
    (cs : List Char) (h : (ofFrames frames (withReturns cs)).closed) :
    (ofFrames frames cs).closed := by
  have hreturn : isBlank '\r' := rfl
  have hfeed : isBlank '\n' := rfl
  induction frames, cs using ofFrames.induct with
  | case1 cs => rw [ofFrames_nil]
  | case2 frame frames => exact h
  | case3 frames c cs ih =>
    rw [List.forall_mem_cons] at hf
    rw [ofFrames_code]
    refine ih (Frame.holdsBlanks_enter hf.2 c) ?_
    by_cases hc : c = '\n'
    · subst hc
      rw [withReturns_lineFeed, ofFrames_code, Frame.enter_blank hreturn, ofFrames_code] at h
      exact h
    · rw [withReturns_cons hc, ofFrames_code] at h
      exact h
  | case4 frames quote cs ih =>
    rw [List.forall_mem_cons] at hf
    rw [withReturns_cons (ne_of_isBlank hfeed hf.1).symm, ofFrames_quote] at h
    rw [ofFrames_quote]
    exact ih hf.2 h
  | case5 quote frames cs hq =>
    rw [List.forall_mem_cons] at hf
    rw [withReturns_lineFeed, ofFrames_plain _ _ _ (ne_of_isBlank hreturn hf.1) (by decide)
      (by decide), ofFrames_lineEnd _ _ _ hq] at h
    cases h
  | case6 quote frames hq hb => exact h
  | case7 quote frames c cs hq hb ih =>
    by_cases hc : c = '\n'
    · subst hc
      rw [List.forall_mem_cons] at hf
      rw [withReturns_cons (by decide), withReturns_lineFeed, ofFrames_escaped _ _ _ _ hq,
        ofFrames_lineEnd _ _ _ (ne_of_isBlank hfeed hf.1)] at h
      cases h
    · rw [withReturns_cons (by decide), withReturns_cons hc, ofFrames_escaped _ _ _ _ hq] at h
      rw [ofFrames_escaped _ _ _ _ hq]
      exact ih hf h
  | case8 quote frames c cs hq hn hb ih =>
    rw [withReturns_cons hn, ofFrames_plain _ _ _ hq hn hb] at h
    rw [ofFrames_plain _ _ _ hq hn hb]
    exact ih hf h
  | case9 frames => exact h
  | case10 frames c cs ih =>
    rw [ofFrames_templateEscaped]
    refine ih hf ?_
    by_cases hc : c = '\n'
    · subst hc
      rw [withReturns_cons (by decide), withReturns_lineFeed, ofFrames_templateEscaped,
        ofFrames_static _ _ (by decide) (by decide) fun h => absurd h (by decide)] at h
      exact h
    · rw [withReturns_cons (by decide), withReturns_cons hc, ofFrames_templateEscaped] at h
      exact h
  | case11 frames cs ih =>
    rw [withReturns_cons (by decide), withReturns_cons (by decide), ofFrames_interpolation] at h
    rw [ofFrames_interpolation]
    exact ih (List.forall_mem_cons.2 ⟨trivial, hf⟩) h
  | case12 frames cs _ _ _ ih =>
    rw [List.forall_mem_cons] at hf
    rw [withReturns_cons (by decide), ofFrames_backtick] at h
    rw [ofFrames_backtick]
    exact ih hf.2 h
  | case13 frames c cs hend hesc hcode ht ih =>
    have hb : c ≠ '\\' := by
      intro hb
      cases cs with
      | nil => exact hend hb rfl
      | cons d cs => exact hesc d cs hb rfl
    have hbrace : c = '$' → cs.head? ≠ some '\x7b' := by
      intro hc hhead
      obtain ⟨rest, rfl⟩ := List.head?_eq_some_iff.1 hhead
      exact hcode rest hc rfl
    rw [ofFrames_static _ _ hb ht hbrace]
    refine ih hf ?_
    by_cases hc : c = '\n'
    · subst hc
      rw [withReturns_lineFeed,
        ofFrames_static _ _ (by decide) (by decide) fun h => absurd h (by decide),
        ofFrames_static _ _ (by decide) (by decide) fun h => absurd h (by decide)] at h
      exact h
    · rw [withReturns_cons hc, ofFrames_static _ _ hb ht fun hd =>
        head?_withReturns_ne (by decide) (hbrace hd)] at h
      exact h

private theorem closed_ofRegex_withReturns (inClass : Bool) (cs : List Char)
    (h : (ofRegex inClass (withReturns cs)).closed) : (ofRegex inClass cs).closed := by
  have hend (inClass : Bool) (ys : List Char) : (ofRegex inClass ('\n' :: ys)).closed = false := by
    rw [ofRegex_cons _ (by decide)]
    simp
  induction inClass, cs using ofRegex.induct with
  | case1 inClass => exact h
  | case2 inClass => exact h
  | case3 inClass c cs ih =>
    by_cases hc : c = '\n'
    · subst hc
      rw [withReturns_cons (by decide), withReturns_lineFeed, ofRegex_escaped] at h
      exact absurd h (by simp [more, hend])
    · rw [withReturns_cons (by decide), withReturns_cons hc, ofRegex_escaped] at h
      rw [ofRegex_escaped]
      exact ih h
  | case4 inClass cs _ _ ih =>
    rw [withReturns_cons (by decide), ofRegex_cons _ (by decide), if_pos rfl] at h
    rw [ofRegex_cons _ (by decide), if_pos rfl]
    exact ih h
  | case5 inClass cs _ _ ho ih =>
    rw [withReturns_cons (by decide), ofRegex_cons _ (by decide), if_neg ho, if_pos rfl] at h
    rw [ofRegex_cons _ (by decide), if_neg ho, if_pos rfl]
    exact ih h
  | case6 inClass c cs _ _ ho hc hs =>
    rw [ofRegex_cons _ (by rw [hs.1]; decide), if_neg ho, if_neg hc, if_pos hs]
  | case7 inClass cs _ _ ho hc hs =>
    rw [withReturns_lineFeed, ofRegex_cons _ (by decide), if_neg (by decide), if_neg (by decide),
      if_neg (by simp), if_neg (by decide)] at h
    exact absurd h (by simp [more, hend])
  | case8 inClass c cs hlast hesc ho hc hs hn ih =>
    have hb : c ≠ '\\' := by
      intro hb
      cases cs with
      | nil => exact hlast hb rfl
      | cons d cs => exact hesc d cs hb rfl
    rw [withReturns_cons hn, ofRegex_cons _ hb, if_neg ho, if_neg hc, if_neg hs, if_neg hn] at h
    rw [ofRegex_cons _ hb, if_neg ho, if_neg hc, if_neg hs, if_neg hn]
    exact ih h

/-- A block comment ends where it did. -/
theorem ofBlockComment_withReturns (cs : List Char) :
    ofBlockComment (withReturns cs) =
      ⟨(ofBlockComment cs).closed,
        (withReturns (cs.take (ofBlockComment cs).length)).length⟩ := by
  induction cs using ofBlockComment.induct with
  | case1 => rfl
  | case2 cs => rfl
  | case3 c cs hne ih =>
    have hopen : c = '*' → cs.head? ≠ some '/' := by
      intro hc hhead
      obtain ⟨rest, rfl⟩ := List.head?_eq_some_iff.1 hhead
      exact hne rest hc rfl
    rw [ofBlockComment_cons _ hopen, length_more, Nat.add_comm, List.take_succ_cons]
    by_cases hc : c = '\n'
    · subst hc
      rw [withReturns_lineFeed, withReturns_lineFeed,
        ofBlockComment_cons _ fun h => absurd h (by decide),
        ofBlockComment_cons _ fun h => absurd h (by decide), ih, more_more]
      simp only [more, List.length_cons, Extent.mk.injEq, true_and]
      omega
    · rw [withReturns_cons hc, withReturns_cons hc,
        ofBlockComment_cons _ fun h => head?_withReturns_ne (by decide) (hopen h), ih]
      simp only [more, List.length_cons, Extent.mk.injEq, true_and]
      omega

end Extent

/-- A literal with a text of its own, which may hold an escaped line feed. -/
def TokenKind.isText : TokenKind → Bool
  | string _ | template _ | regex _ => true
  | _ => false

/-- A token goes on behind the end of a line. -/
def SpansLines (source : String) (t : Token) : Prop := '\n' ∈ (t.text source).toList

private theorem drop_withReturns {n : Nat} {cs : List Char} (h : '\n' ∉ cs.take n)
    (hn : n ≤ cs.length) :
    (withReturns cs).drop n = withReturns (cs.drop n) := by
  have hsplit := withReturns_append (cs.take n) (cs.drop n)
  rw [List.take_append_drop, withReturns_eq_self h] at hsplit
  rw [hsplit, List.drop_left' (List.length_take_of_le hn)]

namespace Lexer
variable {regexAllowed : Bool} {c : Char} {cs : List Char}

theorem ReadsLiteral.fst_withReturns {r : List Char → TokenKind × Nat} {e : List Char → Extent}
    {literal : LiteralKind} (h : ReadsLiteral r e literal)
    (hclosed : (e (withReturns cs)).closed → (e cs).closed) (hr : IsUnterminated (r cs).1) :
    (r (withReturns cs)).1 = (r cs).1 := by
  have hopen : (e cs).closed = false := by
    by_contra hc
    exact h.closed (by simpa using hc) hr
  have hopen' : (e (withReturns cs)).closed = false := by
    by_contra hc
    rw [hclosed (by simpa using hc)] at hopen
    cases hopen
  rw [h.unclosed hopen, h.unclosed hopen']

private theorem fst_readSlash_withReturns (h : IsUnterminated (readSlash regexAllowed cs).1) :
    (readSlash regexAllowed (withReturns cs)).1 = (readSlash regexAllowed cs).1 := by
  cases cs with
  | nil => rfl
  | cons d cs =>
    rw [readSlash_cons] at h
    by_cases hline : d = '/'
    · rw [if_pos hline] at h
      obtain ⟨literal, h⟩ := h
      cases h
    rw [if_neg hline] at h
    by_cases hblock : d = '*'
    · rw [if_pos hblock] at h
      subst hblock
      rw [withReturns_cons (by decide), readSlash_cons, readSlash_cons]
      refine readsLiteral_blockComment.fst_withReturns (fun hclosed => ?_) h
      rwa [Extent.ofBlockComment_withReturns] at hclosed
    rw [if_neg hblock] at h
    -- A return is neither of the two characters that make the slash open a comment.
    obtain ⟨e, more, he, hne⟩ :
        ∃ e more, withReturns (d :: cs) = e :: more ∧ e ≠ '/' ∧ e ≠ '*' := by
      by_cases hd : d = '\n'
      · subst hd
        exact ⟨_, _, withReturns_lineFeed cs, by decide, by decide⟩
      · exact ⟨_, _, withReturns_cons hd cs, hline, hblock⟩
    rw [he, readSlash_cons, readSlash_cons, if_neg hne.1, if_neg hne.2, if_neg hline,
      if_neg hblock, ← he]
    cases regexAllowed with
    | true =>
      exact readsLiteral_regex.fst_withReturns (Extent.closed_ofRegex_withReturns false _) h
    | false => rfl

/-- A literal that is not terminated stays so. -/
theorem fst_read_withReturns (h : IsUnterminated (read regexAllowed c cs).1) :
    (read regexAllowed c (withReturns cs)).1 = (read regexAllowed c cs).1 := by
  have hquoted {quote : Char} (hq : isBlank quote = false)
      (h : IsUnterminated (readQuoted quote cs).1) :
      (readQuoted quote (withReturns cs)).1 = (readQuoted quote cs).1 := by
    have hframes : ∀ f ∈ [Extent.Frame.quoted quote], f.HoldsBlanks :=
      List.forall_mem_singleton.2 hq
    exact (readsLiteral_quoted hq).fst_withReturns (Extent.closed_ofFrames_withReturns hframes cs) h
  rcases eq_of_unterminated h with rfl | rfl | rfl | rfl
  · exact fst_readSlash_withReturns h
  · exact hquoted (by decide) h
  · exact hquoted (by decide) h
  · have hframes : ∀ f ∈ [Extent.Frame.template], f.HoldsBlanks :=
      List.forall_mem_singleton.2 trivial
    exact readsLiteral_template.fst_withReturns (Extent.closed_ofFrames_withReturns hframes cs) h

section
variable {kind : TokenKind} {n : Nat} (hr : read regexAllowed c cs = (kind, n))
  (hk : kind.isTrivia = false) (hterm : ¬IsUnterminated kind)
include hr hk hterm

private theorem not_isBlank_of_read : isBlank c = false := by
  by_contra hc
  rw [read_blank (by simpa using hc)] at hr
  cases hr
  cases hk

/-- These characters begin nothing longer than themselves but literals and comments. -/
theorem isText_of_opening (hc : c = '/' ∨ c = '"' ∨ c = '\'' ∨ c = '`') (hn : 0 < n) :
    kind.isText := by
  have hclosed {closed : Bool} {k : TokenKind} {literal : LiteralKind}
      (h : (if closed then k else .unterminated literal) = kind) : k = kind := by
    cases closed with
    | true => exact h
    | false => exact absurd ⟨literal, h.symm⟩ hterm
  rcases hc with rfl | rfl | rfl | rfl
  · change readSlash regexAllowed cs = (kind, n) at hr
    unfold readSlash at hr
    split at hr
    · rw [← (Prod.mk.inj hr).1] at hk
      cases hk
    · rw [← hclosed (Prod.mk.inj hr).1] at hk
      cases hk
    · split at hr
      · simp only [readRegex] at hr
        split at hr
        · rw [← (Prod.mk.inj hr).1]
          rfl
        · exact absurd ⟨_, (Prod.mk.inj hr).1.symm⟩ hterm
      · rw [← (Prod.mk.inj hr).2] at hn
        cases hn
  · rw [← hclosed (Prod.mk.inj hr).1]
    rfl
  · rw [← hclosed (Prod.mk.inj hr).1]
    rfl
  · rw [← hclosed (Prod.mk.inj hr).1]
    rfl

/-- Of the tokens that mean something only texts hold a line feed. -/
theorem isText_of_lineFeed (hline : '\n' ∈ cs.take n) : kind.isText := by
  have hc := not_isBlank_of_read hr hk hterm
  obtain ⟨line, more, rfl, hnone⟩ := List.eq_append_cons_of_mem (List.mem_of_mem_take hline)
  by_cases hu : IsUnterminated (read regexAllowed c line).1
  · refine isText_of_opening hr hk hterm (eq_of_unterminated hu) (Nat.pos_of_ne_zero ?_)
    rintro rfl
    rw [List.take_zero] at hline
    cases hline
  · rw [read_append more hc hu] at hr
    have hle := read_le regexAllowed c line
    rw [hr] at hle
    rw [List.take_append_of_le_length hle] at hline
    exact absurd (List.mem_of_mem_take hline) hnone

/-- A token that holds no line feed is read as it was. -/
theorem read_withReturns (hline : '\n' ∉ cs.take n) :
    read regexAllowed c (withReturns cs) = (kind, n) := by
  have hc := not_isBlank_of_read hr hk hterm
  by_cases hmem : '\n' ∈ cs
  · obtain ⟨line, more, rfl, hnone⟩ := List.eq_append_cons_of_mem hmem
    have hn : (read regexAllowed c (line ++ '\n' :: more)).2 ≤ line.length := by
      rw [hr]
      by_contra hlt
      obtain ⟨m, rfl⟩ := Nat.exists_eq_add_of_lt (Nat.lt_of_not_le hlt)
      refine hline ?_
      rw [Nat.add_assoc, List.take_length_add_append, List.take_succ_cons]
      simp
    have hreturn : isBlank '\r' := rfl
    have hread := read_take_append hreturn hc ('\n' :: withReturns more) hn
      (.inl (by rwa [hr])) fun ht => by rw [hr, hk] at ht; cases ht
    rw [List.take_left, hr] at hread
    rw [withReturns_append, withReturns_eq_self hnone, withReturns_lineFeed, hread]
  · rw [withReturns_eq_self hmem, hr]

end

end Lexer

/-- Kinds that are the same, if need be only up to the first literal that is not terminated. -/
def AlikeToFault (ks ks' : List TokenKind) : Prop :=
  ks' = ks ∨ ∃ before literal after after', (∀ k ∈ before, ¬IsUnterminated k) ∧
    ks = before ++ .unterminated literal :: after ∧ ks' = before ++ .unterminated literal :: after'

theorem AlikeToFault.cons {ks ks' : List TokenKind} (h : AlikeToFault ks ks') {kind : TokenKind}
    (hterm : ¬IsUnterminated kind) : AlikeToFault (kind :: ks) (kind :: ks') := by
  rcases h with rfl | ⟨before, literal, after, after', hbefore, rfl, rfl⟩
  · exact .inl rfl
  · exact .inr ⟨kind :: before, literal, after, after',
      List.forall_mem_cons.2 ⟨hterm, hbefore⟩, rfl, rfl⟩

section
variable {rule : SlashRule} {last : Option TokenKind}

/-- What follows the first line of a comment begins with a blank as it did. -/
theorem kindsFrom_lineEnd (cs : List Char) :
    kindsFrom rule last ((withReturns cs).dropWhile (· ≠ '\n')) =
      kindsFrom rule last (withReturns (cs.dropWhile (· ≠ '\n'))) := by
  have hreturn : isBlank '\r' := rfl
  have hfeed : isBlank '\n' := rfl
  induction cs with
  | nil => rfl
  | cons c cs ih =>
    by_cases hc : c = '\n'
    · subst hc
      rw [withReturns_lineFeed, List.dropWhile_cons_of_pos (by simp),
        List.dropWhile_cons_of_neg (by simp), List.dropWhile_cons_of_neg (by simp),
        withReturns_lineFeed, kindsFrom_blank_cons hfeed, kindsFrom_blank_cons hreturn,
        kindsFrom_blank_cons hfeed]
    · rw [withReturns_cons hc, List.dropWhile_cons_of_pos (by simpa using hc),
        List.dropWhile_cons_of_pos (by simpa using hc), ih]

private theorem kindsFrom_trivia_withReturns {c : Char} {cs : List Char} {kind : TokenKind}
    {n : Nat} (hr : Lexer.read (rule.allowsRegex last) c cs = (kind, n)) (hk : kind.isTrivia) :
    kindsFrom rule last (withReturns (c :: cs)) =
      kindsFrom rule last (withReturns (cs.drop n)) := by
  have hread : (Lexer.read (rule.allowsRegex last) c cs).1.isTrivia := by rwa [hr]
  rcases Lexer.read_isTrivia hread with hc | ⟨rfl, ⟨xs, rfl⟩ | ⟨xs, rfl, hclosed⟩⟩
  · rw [Lexer.read_blank hc] at hr
    obtain ⟨rfl, rfl⟩ := Prod.mk.inj hr
    have hsplit : c :: cs = (c :: cs.takeWhile isBlank) ++ cs.dropWhile isBlank := by
      rw [List.cons_append, List.takeWhile_append_dropWhile]
    rw [drop_length_takeWhile, hsplit, withReturns_append,
      kindsFrom_blank (forall_mem_withReturns (forall_mem_blanks hc cs))]
  · obtain ⟨-, rfl⟩ := Prod.mk.inj hr
    have hdrop : ('/' :: xs).drop ((Lexer.readLineComment xs).2 + 1) =
        xs.dropWhile (· ≠ '\n') := by
      rw [List.drop_succ_cons]
      exact drop_length_takeWhile _ xs
    rw [hdrop, ← kindsFrom_lineEnd]
    exact kindsFrom_lineComment (withReturns xs)
  · obtain ⟨-, rfl⟩ := Prod.mk.inj hr
    have hsame := Extent.ofBlockComment_withReturns xs
    have hclosed' : (Extent.ofBlockComment (withReturns xs)).closed := by rwa [hsame]
    have hrest : (withReturns xs).drop (Extent.ofBlockComment (withReturns xs)).length =
        withReturns (xs.drop (Extent.ofBlockComment xs).length) := by
      have hsplit := withReturns_append (xs.take (Extent.ofBlockComment xs).length)
        (xs.drop (Extent.ofBlockComment xs).length)
      rw [List.take_append_drop] at hsplit
      rw [hsame, hsplit]
      exact List.drop_left
    have hskip : kindsFrom rule last ('/' :: '*' ::
        ((withReturns xs).take (Extent.ofBlockComment (withReturns xs)).length ++
          (withReturns xs).drop (Extent.ofBlockComment (withReturns xs)).length)) =
        kindsFrom rule last
          ((withReturns xs).drop (Extent.ofBlockComment (withReturns xs)).length) :=
      kindsFrom_blockComment hclosed' _
    rw [List.take_append_drop, hrest] at hskip
    exact hskip

end

/-- Where no text of a literal goes over a line end, returns change no meaning before the first
literal that is not terminated. -/
theorem alikeToFault_withReturns (rule : SlashRule) (last : Option TokenKind)
    (before cs : List Char)
    (h : ∀ t ∈ lexFrom rule last (utf8Length before) cs, t.kind.isText →
      ¬SpansLines (String.ofList (before ++ cs)) t) :
    AlikeToFault (kindsFrom rule last cs) (kindsFrom rule last (withReturns cs)) := by
  match cs with
  | [] => exact .inl rfl
  | c :: cs =>
    rcases hr : Lexer.read (rule.allowsRegex last) c cs with ⟨kind, n⟩
    rw [lexFrom_behind before hr, List.forall_mem_cons] at h
    obtain ⟨hfirst, hothers⟩ := h
    have ih := alikeToFault_withReturns rule (lastAfter last kind) (before ++ c :: cs.take n)
      (cs.drop n)
    rw [append_take_append_drop] at ih
    replace ih := ih hothers
    rw [SpansLines, text_first, String.toList_ofList] at hfirst
    cases hk : kind.isTrivia with
    | true =>
      rw [lastAfter, if_pos hk] at ih
      rwa [kindsFrom_trivia hr hk, kindsFrom_trivia_withReturns hr hk]
    | false =>
      rw [lastAfter, if_neg (by simp [hk])] at ih
      have hlf : c ≠ '\n' := by
        rintro rfl
        rw [Lexer.read_blank rfl] at hr
        cases hr
        cases hk
      rw [withReturns_cons hlf, kindsFrom_token hr hk]
      by_cases hterm : IsUnterminated kind
      · obtain ⟨literal, rfl⟩ := hterm
        have hopen : IsUnterminated (Lexer.read (rule.allowsRegex last) c cs).1 := by
          rw [hr]
          exact ⟨literal, rfl⟩
        have hsame := Lexer.fst_read_withReturns hopen
        rcases hr' : Lexer.read (rule.allowsRegex last) c (withReturns cs) with ⟨kind', n'⟩
        rw [hr, hr'] at hsame
        obtain rfl : kind' = .unterminated literal := hsame
        rw [kindsFrom_token hr' rfl]
        exact .inr ⟨[], literal, _, _, by simp, rfl, rfl⟩
      · have hline : '\n' ∉ cs.take n := by
          intro hmem
          exact hfirst (Lexer.isText_of_lineFeed hr hk hterm hmem) (List.mem_cons_of_mem _ hmem)
        have hle : n ≤ cs.length := by
          have := Lexer.read_le (rule.allowsRegex last) c cs
          rwa [hr] at this
        rw [kindsFrom_token (Lexer.read_withReturns hr hk hterm hline) hk,
          drop_withReturns hline hle]
        exact ih.cons hterm
termination_by cs.length

/-- Kinds behind the first literal that is not terminated are not looked at. -/
theorem AlikeToFault.checked_eq {ks ks' : List TokenKind} (h : AlikeToFault ks ks') :
    checked (unplaced ks') = checked (unplaced ks) := by
  rcases h with rfl | ⟨before, literal, after, after', hbefore, rfl, rfl⟩
  · rfl
  · have hfault (after : List TokenKind) :
        unterminated? (unplaced (before ++ .unterminated literal :: after)) =
          some (.unterminatedLiteral literal ⟨0, 0⟩) := by
      refine (unterminated?_eq_some_iff _ _).2 ⟨unplaced before, literal, ⟨0, 0⟩, unplaced after,
        by simp [unplaced], fun t ht => ?_, rfl⟩
      obtain ⟨kind, hkind, rfl⟩ := List.mem_map.1 ht
      exact hbefore kind hkind
    rw [checked, checked, hfault, hfault]

/-- A script is read as it was, places aside, where returns are put before its line feeds. -/
theorem document_withReturns {source : String}
    (h : ∀ t ∈ lex .byContext source, t.kind.isText → ¬SpansLines source t) :
    Fault.relocateOr nowhere (List.map (Expr.relocate nowhere))
        (document (String.ofList (withReturns source.toList))) =
      Fault.relocateOr nowhere (List.map (Expr.relocate nowhere)) (document source) := by
  have hsource : String.ofList ([] ++ source.toList) = source := String.ofList_toList
  have halike : AlikeToFault (kindsFrom .byContext none source.toList)
      (kindsFrom .byContext none (withReturns source.toList)) := by
    refine alikeToFault_withReturns .byContext none [] source.toList ?_
    rwa [hsource]
  rw [← expressions_relocate, ← expressions_relocate, tokens_unplaced, tokens_unplaced,
    String.toList_ofList, halike.checked_eq]

end DesignTokens.Script
