import DesignTokens.Proofs.Script.Lexing
import Mathlib.Data.List.Chain

/-! # The places of tokens

The tokens of a text lie end to end from its first byte to its last one. -/
namespace DesignTokens.Script
open Text (Span utf8Length utf8Length_append utf8Length_eq utf8Length_pos isValid_utf8Length)

/-- The text between the two ends of a token. -/
def Token.text (source : String) (t : Token) : String :=
  String.Pos.Raw.extract source ⟨t.span.start⟩ ⟨t.span.stop⟩

/-- Tokens that share out a text among them, each one where the one before it ends. -/
structure Tiles (source : String) (ts : List Token) : Prop where
  first : ts.head?.map (fun t => t.span.start) = some 0
  adjacent : ts.IsChain fun t u => t.span.stop = u.span.start
  progress : ∀ t ∈ ts.dropLast, t.span.start < t.span.stop
  last : ts.getLast? = some ⟨.endOfText, ⟨source.utf8ByteSize, source.utf8ByteSize⟩⟩
  once : ∀ t ∈ ts.dropLast, t.kind ≠ .endOfText
  boundaries : ∀ t ∈ ts, (String.Pos.Raw.mk t.span.start).IsValid source ∧
    (String.Pos.Raw.mk t.span.stop).IsValid source
  texts : String.join (ts.map (Token.text source)) = source

/-- The tokens of a text that stands behind another one. -/
inductive Cuts : (before cs : List Char) → List Token → Prop
  | done {before : List Char} :
      Cuts before [] [⟨.endOfText, ⟨utf8Length before, utf8Length before⟩⟩]
  | token {before text rest : List Char} {kind : TokenKind} {ts : List Token} (ht : text ≠ [])
      (hk : kind ≠ .endOfText) (h : Cuts (before ++ text) rest ts) :
      Cuts before (text ++ rest) (⟨kind, ⟨utf8Length before, utf8Length (before ++ text)⟩⟩ :: ts)

namespace Lexer

private theorem number_ne_endOfText (first : Char) (cs : List Char) :
    (NumericLiteral.read first cs).1 ≠ .endOfText := by
  rcases number_kind first cs with ⟨value, h⟩ | h <;> simp [h]

/-- No text is read as the token at the end. -/
theorem read_ne_endOfText (regexAllowed : Bool) (c : Char) (cs : List Char) :
    (read regexAllowed c cs).1 ≠ .endOfText := by
  unfold read
  split
  case h_10 => split <;> simp
  case h_11 =>
    unfold readDot
    split
    · simp
    · split
      · exact number_ne_endOfText _ _
      · simp
    · simp
  case h_12 =>
    unfold readSlash
    split
    · simp [readLineComment]
    · simp only [readBlockComment]
      split <;> simp
    · simp only [readRegex]
      split
      · split <;> simp
      · simp
  case h_13 | h_14 =>
    simp only [readQuoted]
    split <;> simp
  case h_15 =>
    simp only [readTemplate]
    split <;> simp
  case h_16 =>
    split
    · simp
    · split
      · simp [readIdentifier]
      · split
        · exact number_ne_endOfText _ _
        · simp
  all_goals simp

end Lexer

section
variable {rule : SlashRule} {last : Option TokenKind} {c : Char} {cs : List Char}
  {kind : TokenKind} {length : Nat}

/-- The first token of a text that stands behind another one, and the tokens behind it. -/
theorem lexFrom_behind (before : List Char)
    (h : Lexer.read (rule.allowsRegex last) c cs = (kind, length)) :
    lexFrom rule last (utf8Length before) (c :: cs) =
      ⟨kind, ⟨utf8Length before, utf8Length (before ++ c :: cs.take length)⟩⟩ ::
        lexFrom rule (lastAfter last kind) (utf8Length (before ++ c :: cs.take length))
          (cs.drop length) := by
  rw [lexFrom_cons _ _ _ _ _ h, utf8Length_append]

theorem append_take_append_drop (before : List Char) (c : Char) (cs : List Char) (length : Nat) :
    (before ++ c :: cs.take length) ++ cs.drop length = before ++ c :: cs := by
  rw [List.append_assoc, List.cons_append, List.take_append_drop]

end

/-- What the lexer reads at some place it cuts off there. -/
theorem cuts_lexFrom (rule : SlashRule) (last : Option TokenKind) (before cs : List Char) :
    Cuts before cs (lexFrom rule last (utf8Length before) cs) := by
  match cs with
  | [] =>
    rw [lexFrom_nil]
    exact .done
  | c :: cs =>
    rcases hr : Lexer.read (rule.allowsRegex last) c cs with ⟨kind, length⟩
    have hkind : kind ≠ .endOfText := by
      have := Lexer.read_ne_endOfText (rule.allowsRegex last) c cs
      rwa [hr] at this
    have htext : (c :: cs.take length) ++ cs.drop length = c :: cs := by
      rw [List.cons_append, List.take_append_drop]
    rw [lexFrom_behind before hr, ← htext]
    exact .token (List.cons_ne_nil _ _) hkind (cuts_lexFrom rule _ _ (cs.drop length))
termination_by cs.length

namespace Cuts
variable {before cs : List Char} {ts : List Token}

theorem head? (h : Cuts before cs ts) :
    ts.head?.map (fun t => t.span.start) = some (utf8Length before) := by
  cases h <;> rfl

theorem ne_nil (h : Cuts before cs ts) : ts ≠ [] := by
  cases h <;> simp

theorem adjacent (h : Cuts before cs ts) :
    ts.IsChain fun t u => t.span.stop = u.span.start := by
  induction h with
  | done => exact .singleton _
  | token ht hk h ih =>
    refine List.isChain_cons.2 ⟨fun u hu => ?_, ih⟩
    have hhead := h.head?
    rw [hu] at hhead
    exact (Option.some.inj hhead).symm

theorem getLast? (h : Cuts before cs ts) :
    ts.getLast? = some ⟨.endOfText, ⟨utf8Length (before ++ cs), utf8Length (before ++ cs)⟩⟩ := by
  induction h with
  | done => rw [List.append_nil, List.getLast?_singleton]
  | token ht hk h ih =>
    rw [List.append_assoc] at ih
    rw [List.getLast?_cons, ih]
    rfl

/-- Every token but the last has a text. -/
theorem progress (h : Cuts before cs ts) :
    ∀ t ∈ ts.dropLast, t.span.start < t.span.stop ∧ t.kind ≠ .endOfText := by
  induction h with
  | done => simp
  | @token before text rest kind ts ht hk h ih =>
    rw [List.dropLast_cons_of_ne_nil h.ne_nil, List.forall_mem_cons]
    refine ⟨⟨?_, hk⟩, ih⟩
    rw [utf8Length_append]
    exact Nat.lt_add_of_pos_right (utf8Length_pos ht)

theorem boundaries (h : Cuts before cs ts) :
    ∀ t ∈ ts, (String.Pos.Raw.mk t.span.start).IsValid (String.ofList (before ++ cs)) ∧
      (String.Pos.Raw.mk t.span.stop).IsValid (String.ofList (before ++ cs)) := by
  induction h with
  | @done before =>
    rw [List.forall_mem_singleton]
    exact ⟨isValid_utf8Length before [], isValid_utf8Length before []⟩
  | @token before text rest kind ts ht hk h ih =>
    rw [List.append_assoc] at ih
    rw [List.forall_mem_cons]
    refine ⟨⟨isValid_utf8Length before _, ?_⟩, ih⟩
    rw [← List.append_assoc]
    exact isValid_utf8Length (before ++ text) rest

theorem text_eq (before text rest : List Char) (kind : TokenKind) :
    Token.text (String.ofList (before ++ (text ++ rest)))
      ⟨kind, ⟨utf8Length before, utf8Length (before ++ text)⟩⟩ = String.ofList text := by
  rw [Token.text, utf8Length_append, utf8Length_eq, utf8Length_eq, String.utf8ByteSize_ofList,
    String.utf8ByteSize_ofList, ← List.append_assoc]
  exact String.extract_of_valid before text rest

theorem texts (h : Cuts before cs ts) :
    String.join (ts.map (Token.text (String.ofList (before ++ cs)))) = String.ofList cs := by
  induction h with
  | @done before =>
    have := text_eq before [] [] .endOfText
    simpa using this
  | @token before text rest kind ts ht hk h ih =>
    rw [List.append_assoc] at ih
    rw [List.map_cons, String.join_cons, text_eq, ih, String.ofList_append]

end Cuts

theorem text_endOfText (before : List Char) :
    Token.text (String.ofList before) ⟨.endOfText, ⟨utf8Length before, utf8Length before⟩⟩ =
      "" := by
  have h := Cuts.text_eq before [] [] .endOfText
  rwa [List.append_nil, List.append_nil] at h

theorem text_first (before : List Char) (c : Char) (cs : List Char) (length : Nat)
    (kind : TokenKind) :
    Token.text (String.ofList (before ++ c :: cs))
      ⟨kind, ⟨utf8Length before, utf8Length (before ++ c :: cs.take length)⟩⟩ =
        String.ofList (c :: cs.take length) := by
  have h := Cuts.text_eq before (c :: cs.take length) (cs.drop length) kind
  rwa [List.cons_append, List.take_append_drop] at h

theorem tiles_lex (rule : SlashRule) (source : String) : Tiles source (lex rule source) := by
  have h : Cuts [] source.toList (lex rule source) := cuts_lexFrom rule none [] source.toList
  have hsource : String.ofList ([] ++ source.toList) = source := String.ofList_toList
  have hlength : utf8Length ([] ++ source.toList) = source.utf8ByteSize := by
    rw [utf8Length_eq, hsource]
  have hlast := h.getLast?
  have hboundaries := h.boundaries
  have htexts := h.texts
  rw [hlength] at hlast
  rw [hsource] at hboundaries htexts
  rw [String.ofList_toList] at htexts
  exact {
    first := h.head?
    adjacent := h.adjacent
    progress := fun t ht => (h.progress t ht).1
    last := hlast
    once := fun t ht => (h.progress t ht).2
    boundaries := hboundaries
    texts := htexts }

end DesignTokens.Script
