import DesignTokens.Proofs.Script.Accepted
import DesignTokens.Proofs.Script.Lexing
import DesignTokens.Proofs.Script.ParserNests

/-! # Scripts one after the other

Between two scripts a semicolon on a line of its own keeps the tokens of both what they were, and so
the object literals of both are found, those of the second one at places moved by its offset. -/
namespace DesignTokens.Script
open Text (Span utf8Length utf8Length_append isBlank)

private theorem significant_lexFrom_step {rule : SlashRule} {last : Option TokenKind} {start : Nat}
    {c : Char} {cs : List Char} {kind : TokenKind} {length : Nat}
    (hr : Lexer.read (rule.allowsRegex last) c cs = (kind, length))
    (hterm : ¬TokenKind.IsUnterminated kind) (more : List Char) :
    significant (lexFrom rule last start (c :: cs ++ '\n' :: more)) =
      significant [⟨kind, ⟨start, start + utf8Length (c :: cs.take length)⟩⟩] ++
        significant (lexFrom rule (lastAfter last kind)
          (start + utf8Length (c :: cs.take length)) (cs.drop length ++ '\n' :: more)) := by
  have hle : length ≤ cs.length := by
    have := Lexer.read_le (rule.allowsRegex last) c cs
    rwa [hr] at this
  by_cases hc : isBlank c
  · -- Blanks at the end of the text are one token with the line end.
    rw [Lexer.read_blank hc] at hr
    obtain ⟨rfl, rfl⟩ := Prod.mk.inj hr
    have hall : c :: cs ++ '\n' :: more =
        (c :: cs.takeWhile isBlank) ++ (cs.dropWhile isBlank ++ '\n' :: more) := by
      rw [List.cons_append, List.cons_append, ← List.append_assoc,
        List.takeWhile_append_dropWhile]
    rw [take_length_takeWhile, drop_length_takeWhile, hall, significant_lexFrom_blank _ _ _ (forall_mem_blanks hc cs)]
    rfl
  · have hr' : Lexer.read (rule.allowsRegex last) c (cs ++ '\n' :: more) = (kind, length) := by
      rw [Lexer.read_append more (by simpa using hc) (by rwa [hr]), hr]
    rw [List.cons_append, lexFrom_cons _ _ _ _ _ hr', List.take_append_of_le_length hle,
      List.drop_append_of_le_length hle, ← significant_append, List.singleton_append]

/-- A text is read to its end before a line end that follows it. -/
theorem significant_lexFrom_append {rule : SlashRule} {last : Option TokenKind} {start : Nat}
    {cs : List Char} (h : ∀ t ∈ lexFrom rule last start cs, ¬TokenKind.IsUnterminated t.kind) :
    ∃ last', ∀ more, significant (lexFrom rule last start (cs ++ '\n' :: more)) =
      significant (lexFrom rule last start cs) ++
        significant (lexFrom rule last' (start + utf8Length cs) ('\n' :: more)) := by
  match cs with
  | [] =>
    refine ⟨last, fun more => ?_⟩
    rw [lexFrom_nil]
    rfl
  | c :: cs =>
    rcases hr : Lexer.read (rule.allowsRegex last) c cs with ⟨kind, length⟩
    rw [lexFrom_cons _ _ _ _ _ hr] at h ⊢
    have hrest := fun t ht => h t (List.mem_cons_of_mem _ ht)
    obtain ⟨last', hlast⟩ := significant_lexFrom_append hrest
    have hlength : utf8Length (c :: cs.take length) + utf8Length (cs.drop length) =
        utf8Length (c :: cs) := by
      rw [← utf8Length_append, List.cons_append, List.take_append_drop]
    refine ⟨last', fun more => ?_⟩
    rw [significant_lexFrom_step hr (h _ List.mem_cons_self), hlast, ← List.append_assoc,
      ← significant_append, List.singleton_append, Nat.add_assoc, hlength]
termination_by cs.length

/-- What stands between two scripts: a semicolon on a line of its own. -/
def separator : String := "\n;\n"

/-- The offset of the second one of two scripts. -/
def secondStart (first : String) : Nat := utf8Length first.toList + 3

section
variable {first second : String}

theorem significant_lex_join
    (h : ∀ t ∈ lex .byContext first, ¬TokenKind.IsUnterminated t.kind) (second : String) :
    ∃ span, significant (lex .byContext (first ++ separator ++ second)) =
      significant (lex .byContext first) ++ ⟨.semicolon, span⟩ ::
        (significant (lex .byContext second)).map (Token.relocate (secondStart first + ·)) := by
  obtain ⟨last', hlast⟩ := significant_lexFrom_append h
  have hall : (first ++ separator ++ second).toList =
      first.toList ++ '\n' :: ([';'] ++ (['\n'] ++ second.toList)) := by
    simp [separator]
  have hline : ∀ c ∈ ['\n'], isBlank c := by
    intro c hc
    rw [List.mem_singleton.1 hc]
    rfl
  have hblank (last : Option TokenKind) (start : Nat) (more : List Char) :
      significant (lexFrom .byContext last start ('\n' :: more)) =
        significant (lexFrom .byContext last (start + 1) more) :=
    significant_lexFrom_blank _ _ _ hline more
  have hsemicolon (more : List Char) :
      Lexer.read (SlashRule.byContext.allowsRegex last') ';' more = (.semicolon, 0) := rfl
  have hregex : SlashRule.byContext.allowsRegex (lastAfter last' .semicolon) =
      SlashRule.byContext.allowsRegex none := rfl
  refine ⟨⟨utf8Length first.toList + 1, utf8Length first.toList + 2⟩, ?_⟩
  rw [lex, hall, hlast, ← lex, Nat.zero_add, hblank, List.singleton_append,
    lexFrom_cons _ _ _ _ _ (hsemicolon _), List.drop_zero, List.singleton_append,
    ← List.singleton_append, significant_append, hblank, lexFrom_congr hregex,
    ← significant_relocate, lex, lex, ← lexFrom_relocate]
  rfl

/-- The tokens of both scripts, with the semicolon between them. -/
theorem tokens_join {ts us : List Token} (h : tokens first = .ok ts) (h' : tokens second = .ok us) :
    ∃ span, tokens (first ++ separator ++ second) =
      .ok (ts ++ ⟨.semicolon, span⟩ :: us.map (Token.relocate (secondStart first + ·))) := by
  have hterm := not_unterminated_of_tokens h
  obtain ⟨span, hjoin⟩ := significant_lex_join hterm second
  obtain ⟨rfl, hfirst, ns, hns, htokens⟩ := (tokens_eq_ok_iff _ _).1 h
  obtain ⟨rfl, hsecond, ms, hms, htokens'⟩ := (tokens_eq_ok_iff _ _).1 h'
  refine ⟨span, (tokens_eq_ok_iff _ _).2 ⟨hjoin, ?_, ?_⟩⟩
  · intro t ht
    rcases List.mem_append.1 ht with ht | ht
    · exact hfirst t ht
    · rcases List.mem_cons.1 ht with rfl | ht
      · rintro ⟨literal, hk⟩
        cases hk
      · obtain ⟨u, hu, rfl⟩ := List.mem_map.1 ht
        exact hsecond u hu
  · refine ⟨ns ++ .token ⟨.semicolon, span⟩ :: ms.map (Nest.relocate (secondStart first + ·)),
      ?_, ?_⟩
    · rw [Nest.areProper_append, Nest.areProper_cons, Nest.areProper_relocate]
      exact ⟨hns, rfl, hms⟩
    · rw [Nest.tokensOf_append, Nest.tokensOf_cons, Nest.tokensOf_relocate, htokens, htokens']
      rfl

/-- The object literals of both scripts. -/
theorem document_join {roots roots' : List Expr} (h : document first = .ok roots)
    (h' : document second = .ok roots') :
    document (first ++ separator ++ second) =
      .ok (roots ++ roots'.map (Expr.relocate (secondStart first + ·))) := by
  obtain ⟨ts, hts, hroots⟩ := tokens_of_document h
  obtain ⟨us, hus, hroots'⟩ := tokens_of_document h'
  obtain ⟨ns, hns, rfl⟩ := exists_of_tokens hts
  obtain ⟨ms, hms, rfl⟩ := exists_of_tokens hus
  obtain ⟨span, hjoin⟩ := tokens_join hts hus
  have hmoved : Parser.roots ((Nest.tokensOf ms).map (Token.relocate (secondStart first + ·))) =
      .ok (roots'.map (Expr.relocate (secondStart first + ·))) := by
    rw [roots_relocate _ hms, hroots', ← Expr.relocateAll_eq_map]
    rfl
  rw [document, hjoin]
  dsimp only
  rw [roots_tokensOf ns hns, ← roots_eq_found hns, hroots, Parser.roots_cons _ (by simp), hmoved]
  rfl

end

end DesignTokens.Script
