import DesignTokens.Proofs.Json.RoundTrip
import DesignTokens.Proofs.Script.Accepted
import DesignTokens.Proofs.Script.ParserNests
import DesignTokens.Proofs.Script.QuotedText

/-! # Texts that spell tokens

A text spells some tokens if they are read from it wherever it stands and whatever follows it. A
string as JSON spells it is one of them. -/
namespace DesignTokens.Script
open Text (isBlank)
open Json (Spelling spelling_escape letters)

/-- A digit as JSON writes it. -/
theorem mem_digits_hexDigit : ∀ n < 16, (Json.hexDigit n, n) ∈ Escape.digits := by decide

private theorem spelledChar_letter : ∀ p ∈ letters, SpelledChar '"' p.1 ['\\', p.2] := by
  simp only [letters, List.forall_mem_cons]
  refine ⟨.escaped (by decide), .escaped (by decide), .named (by decide), .named (by decide),
    .named (by decide), .named (by decide), .named (by decide), fun _ h => ?_⟩
  cases h

/-- A control character is spelled by four digits. -/
theorem hexadecimal_control {n : Nat} (h : n < 32) :
    Escape.Hexadecimal n ['0', '0', Json.hexDigit (n / 16), Json.hexDigit (n % 16)] := by
  have hzero : Escape.Hexadecimal 0 ['0', '0'] :=
    .concat (n := 0) (d := 0) (.concat (n := 0) (d := 0) .nil (by decide)) (by decide)
  have hhigh := hzero.concat (mem_digits_hexDigit (n / 16) (by omega))
  have hlow := hhigh.concat (mem_digits_hexDigit (n % 16) (Nat.mod_lt _ (by decide)))
  rwa [Nat.mul_zero, Nat.zero_add, Nat.div_add_mod] at hlow

/-- The spelling of a character in JSON is one in a script. -/
theorem spelledChar_escape (c : Char) : SpelledChar '"' c (Json.escape c) := by
  have hs := spelling_escape c
  generalize Json.escape c = text at hs ⊢
  cases hs with
  | letter h => exact spelledChar_letter _ h
  | control h => exact .unit (hexadecimal_control h) rfl
  | plain hq hb hc =>
    refine .raw hq hb fun _ => ?_
    rintro rfl
    exact absurd hc (by decide)

private theorem spelled_flatMap_escape (cs : List Char) :
    Spelled '"' cs (cs.flatMap Json.escape) := by
  induction cs with
  | nil => exact .nil
  | cons c cs ih => exact .cons (spelledChar_escape c) (by simp) ih

/-- A string of JSON is a string of a script. -/
theorem read_quoted (regexAllowed : Bool) (text : String) (more : List Char) :
    Lexer.read regexAllowed '"' (text.toList.flatMap Json.escape ++ '"' :: more) =
      (.string text, (text.toList.flatMap Json.escape).length + 1) :=
  (spelled_flatMap_escape text.toList).read (by decide) regexAllowed more

/-- A token of some kind at no place. -/
def bare (kind : TokenKind) : Token := ⟨kind, ⟨0, 0⟩⟩

/-- Forgets the place of a token. -/
def Token.bare (t : Token) : Token := t.relocate fun _ => 0

/-- The tokens of a text that mean something, without their places. -/
def bareFrom (last : Option TokenKind) (cs : List Char) : List Token :=
  (significant (lexFrom .byContext last 0 cs)).map Token.bare

theorem bareFrom_start (last : Option TokenKind) (start : Nat) (cs : List Char) :
    (significant (lexFrom .byContext last start cs)).map Token.bare = bareFrom last cs := by
  have h := lexFrom_relocate .byContext last start 0 cs
  rw [Nat.add_zero] at h
  rw [h, significant_relocate, List.map_map]
  rfl

theorem bareFrom_token {last : Option TokenKind} {c : Char} {cs : List Char} {kind : TokenKind}
    {length : Nat} (h : Lexer.read (SlashRule.byContext.allowsRegex last) c cs = (kind, length))
    (hkeep : (!kind.isTrivia && kind ≠ .endOfText) = true) :
    bareFrom last (c :: cs) = bare kind :: bareFrom (lastAfter last kind) (cs.drop length) := by
  rw [bareFrom, lexFrom_cons _ _ _ _ _ h, significant, List.filter_cons, if_pos hkeep,
    List.map_cons, ← significant, bareFrom_start]
  rfl

private theorem bareFrom_blank {last : Option TokenKind} {c : Char} (hc : isBlank c)
    (cs : List Char) :
    bareFrom last (c :: cs) = bareFrom last cs := by
  have hone : ∀ d ∈ [c], isBlank d := by
    intro d hd
    rwa [List.mem_singleton.1 hd]
  have h := significant_lexFrom_blank .byContext last 0 hone cs
  rw [List.singleton_append] at h
  rw [bareFrom, h, bareFrom_start]

/-- Wherever the text stands, the tokens are read from it, and none of them goes on behind it. -/
def Spells (cs : List Char) (ts : List Token) : Prop :=
  ∀ last, ∃ last', ∀ more, bareFrom last (cs ++ more) = ts ++ bareFrom last' more

namespace Spells
variable {cs ds : List Char} {ts us : List Token}

theorem nil : Spells [] [] :=
  fun last => ⟨last, fun _ => rfl⟩

theorem append (h : Spells cs ts) (h' : Spells ds us) : Spells (cs ++ ds) (ts ++ us) := by
  intro last
  obtain ⟨middle, hcs⟩ := h last
  obtain ⟨last', hds⟩ := h' middle
  refine ⟨last', fun more => ?_⟩
  rw [List.append_assoc, hcs, hds, List.append_assoc]

theorem blank {c : Char} (hc : isBlank c) (h : Spells cs ts) : Spells (c :: cs) ts := by
  intro last
  obtain ⟨last', hcs⟩ := h last
  refine ⟨last', fun more => ?_⟩
  rw [List.cons_append, bareFrom_blank hc, hcs]

/-- A character that is a token by itself. -/
theorem single {c : Char} {kind : TokenKind}
    (hread : ∀ regexAllowed more, Lexer.read regexAllowed c more = (kind, 0))
    (hkeep : (!kind.isTrivia && kind ≠ .endOfText) = true) (h : Spells cs ts) :
    Spells (c :: cs) (bare kind :: ts) := by
  intro last
  obtain ⟨last', hcs⟩ := h (lastAfter last kind)
  refine ⟨last', fun more => ?_⟩
  rw [List.cons_append, bareFrom_token (hread _ _) hkeep, List.drop_zero, hcs]
  rfl

/-- A token that ends before some character. -/
theorem before {c d : Char} {word : List Char} {kind : TokenKind}
    (hread : ∀ regexAllowed more,
      Lexer.read regexAllowed c (word ++ d :: more) = (kind, word.length))
    (hkeep : (!kind.isTrivia && kind ≠ .endOfText) = true) (h : Spells (d :: cs) ts) :
    Spells (c :: (word ++ d :: cs)) (bare kind :: ts) := by
  intro last
  obtain ⟨last', hcs⟩ := h (lastAfter last kind)
  refine ⟨last', fun more => ?_⟩
  rw [List.cons_append, List.append_assoc, List.cons_append,
    bareFrom_token (hread _ _) hkeep, List.drop_left, ← List.cons_append, hcs]
  rfl

theorem quoted (text : String) : Spells (Json.quoted text) [bare (.string text)] := by
  intro last
  refine ⟨some (.string text), fun more => ?_⟩
  have hlength : (text.toList.flatMap Json.escape ++ '"' :: more).drop
      ((text.toList.flatMap Json.escape).length + 1) = more := by
    rw [← List.drop_drop, List.drop_left]
    rfl
  rw [Json.quoted, List.cons_append, List.append_assoc, List.singleton_append,
    bareFrom_token (read_quoted _ text more) rfl, hlength]
  rfl

theorem bareFrom_eq (h : Spells cs ts) (last : Option TokenKind) : bareFrom last cs = ts := by
  obtain ⟨last', hcs⟩ := h last
  have hend : bareFrom last' [] = [] := by
    rw [bareFrom, lexFrom_nil]
    rfl
  have hall := hcs []
  rwa [hend, List.append_nil, List.append_nil] at hall

end Spells

section
variable {source : String} {ns : List Nest}

/-- A script is accepted for its tokens without their places. -/
theorem tokens_of_bareFrom (hs : bareFrom none source.toList = Nest.tokensOf ns)
    (hp : Nest.AreProper ns) (hterm : ∀ t ∈ Nest.tokensOf ns, ¬TokenKind.IsUnterminated t.kind) :
    ∃ ms, Nest.AreProper ms ∧ ms.map (Nest.relocate fun _ => 0) = ns ∧
      tokens source = .ok (Nest.tokensOf ms) := by
  have hmap : (significant (lex .byContext source)).map (Token.relocate fun _ => 0) =
      Nest.tokensOf ns := hs
  have hbalanced := (Nest.balanced_tokensOf ns hp).of_relocate hmap
  obtain ⟨ms, hms, hts⟩ := Nest.exists_of_balanced hbalanced
  have hns : ms.map (Nest.relocate fun _ => 0) = ns := by
    apply Nest.tokensOf_injective ((Nest.areProper_relocate _ ms).2 hms) hp
    rw [Nest.tokensOf_relocate, hts, hmap]
  refine ⟨ms, hms, hns, (tokens_eq_ok_iff _ _).2 ⟨hts.symm, fun t ht => ?_, ms, hms, rfl⟩⟩
  have hmem : t.relocate (fun _ => 0) ∈ Nest.tokensOf ns := by
    rw [← hns, Nest.tokensOf_relocate]
    exact List.mem_map_of_mem ht
  exact hterm (t.relocate fun _ => 0) hmem

/-- The object literals of a script are found without the places of its tokens. -/
theorem document_of_bareFrom {roots : List Expr}
    (hs : bareFrom none source.toList = Nest.tokensOf ns) (hp : Nest.AreProper ns)
    (hterm : ∀ t ∈ Nest.tokensOf ns, ¬TokenKind.IsUnterminated t.kind)
    (hfound : Reading.found 0 ns = .ok roots) :
    ∃ roots', document source = .ok roots' ∧ roots'.map (Expr.relocate fun _ => 0) = roots := by
  obtain ⟨ms, hms, rfl, htokens⟩ := tokens_of_bareFrom hs hp hterm
  rw [Reading.found_relocate] at hfound
  cases hr : Reading.found 0 ms with
  | error start =>
    rw [hr] at hfound
    cases hfound
  | ok roots' =>
    rw [hr] at hfound
    refine ⟨roots', ?_, ?_⟩
    · rw [document, htokens]
      dsimp only
      rw [roots_eq_found hms, hr]
    · rw [← Expr.relocateAll_eq_map]
      exact Except.ok.inj hfound

end

end DesignTokens.Script
