import DesignTokens.Proofs.Script.Accepted
import DesignTokens.Proofs.Script.Tiling
import Mathlib.Data.List.DropRight

/-! # Whitespace and comments

Whitespace and comments only separate tokens: a text keeps its meaning where all that stands between
two of its tokens becomes one space, and where one more blank stands between them. -/
namespace DesignTokens.Script
open Text (utf8Length utf8Length_append isBlank)

/-- The kinds of tokens, without whitespace and comments. -/
def meanings (ts : List Token) : List TokenKind :=
  (ts.filter fun t => !t.kind.isTrivia).map Token.kind

/-- A text with one space for each run of whitespace and comments; `behind` tells whether the tokens
stand behind some that belong to such a run. -/
def respaced (source : String) (behind : Bool) : List Token → String
  | [] => ""
  | t :: ts =>
    if t.kind.isTrivia then (if behind then "" else " ") ++ respaced source true ts
    else t.text source ++ respaced source false ts

/-- A text with one more character behind the first `count` tokens. -/
def spaced (source : String) (w : Char) (count : Nat) (ts : List Token) : String :=
  String.join ((ts.take count).map (Token.text source)) ++ String.singleton w ++
    String.join ((ts.drop count).map (Token.text source))

/-- Every offset is forgotten. -/
def nowhere : Nat → Nat := fun _ => 0

/-- Texts that are read alike, places aside. -/
structure ReadAlike (source source' : String) : Prop where
  meanings : meanings (lex .byContext source') = meanings (lex .byContext source)
  tokens : Fault.relocateOr nowhere (List.map (Token.relocate nowhere)) (tokens source') =
    Fault.relocateOr nowhere (List.map (Token.relocate nowhere)) (tokens source)
  document : Fault.relocateOr nowhere (List.map (Expr.relocate nowhere)) (document source') =
    Fault.relocateOr nowhere (List.map (Expr.relocate nowhere)) (document source)

namespace Lexer

theorem number_not_trivia (first : Char) (cs : List Char) :
    (NumericLiteral.read first cs).1.isTrivia = false := by
  rcases number_kind first cs with ⟨value, h⟩ | h <;> rw [h] <;> rfl

private theorem readDot_not_trivia (cs : List Char) : (readDot cs).1.isTrivia = false := by
  unfold readDot
  split
  · rfl
  · split
    · exact number_not_trivia _ _
    · rfl
  · rfl

private theorem readRegex_not_trivia (cs : List Char) : (readRegex cs).1.isTrivia = false := by
  simp only [readRegex]
  split <;> rfl

section
variable {regexAllowed : Bool} {c : Char} {cs : List Char}

/-- A slash opens a line comment or a block comment that is closed, or else means something. -/
theorem readSlash_isTrivia (h : (readSlash regexAllowed cs).1.isTrivia) :
    (∃ xs, cs = '/' :: xs) ∨ ∃ xs, cs = '*' :: xs ∧ (Extent.ofBlockComment xs).closed := by
  cases cs with
  | nil => cases regexAllowed <;> cases h
  | cons d xs =>
    rw [readSlash_cons] at h
    split at h
    · rename_i hd
      exact .inl ⟨xs, by rw [hd]⟩
    · split at h
      · rename_i hd
        refine .inr ⟨xs, by rw [hd], ?_⟩
        simp only [readBlockComment] at h
        split at h
        · assumption
        · cases h
      · split at h
        · rw [readRegex_not_trivia] at h
          cases h
        · cases h

/-- Only blanks and comments are trivia. -/
theorem read_isTrivia (h : (read regexAllowed c cs).1.isTrivia) :
    isBlank c ∨ c = '/' ∧ ((∃ xs, cs = '/' :: xs) ∨
      ∃ xs, cs = '*' :: xs ∧ (Extent.ofBlockComment xs).closed) := by
  unfold read at h
  split at h
  case h_10 => split at h <;> cases h
  case h_11 =>
    rw [readDot_not_trivia] at h
    cases h
  case h_12 => exact .inr ⟨rfl, readSlash_isTrivia h⟩
  case h_13 | h_14 =>
    simp only [readQuoted] at h
    split at h <;> cases h
  case h_15 =>
    simp only [readTemplate] at h
    split at h <;> cases h
  case h_16 =>
    split at h
    · exact .inl (by assumption)
    · split at h
      · cases h
      · split at h
        · rw [number_not_trivia] at h
          cases h
        · cases h
  all_goals cases h

end

end Lexer

/-- What the tokens of a text mean, the last one apart. -/
def kindsFrom (rule : SlashRule) (last : Option TokenKind) (cs : List Char) : List TokenKind :=
  (significant (lexFrom rule last 0 cs)).map Token.kind

section
variable {rule : SlashRule} {last : Option TokenKind}

theorem kindsFrom_eq (start : Nat) (cs : List Char) :
    (significant (lexFrom rule last start cs)).map Token.kind = kindsFrom rule last cs := by
  have h := lexFrom_relocate rule last start 0 cs
  rw [Nat.add_zero] at h
  rw [h, significant_relocate, List.map_map]
  rfl

theorem kindsFrom_nil : kindsFrom rule last [] = [] := by
  rw [kindsFrom, lexFrom_nil]
  rfl

theorem kindsFrom_blank {ws : List Char} (hw : ∀ w ∈ ws, isBlank w) (cs : List Char) :
    kindsFrom rule last (ws ++ cs) = kindsFrom rule last cs := by
  rw [kindsFrom, significant_lexFrom_blank rule last 0 hw, kindsFrom_eq]

theorem kindsFrom_blank_cons {w : Char} (hw : isBlank w) (cs : List Char) :
    kindsFrom rule last (w :: cs) = kindsFrom rule last cs :=
  kindsFrom_blank (List.forall_mem_singleton.2 hw) cs

theorem kindsFrom_of_blank {ws : List Char} (hw : ∀ w ∈ ws, isBlank w) :
    kindsFrom rule last ws = [] := by
  rw [← List.append_nil ws, kindsFrom_blank hw, kindsFrom_nil]

section
variable {c : Char} {cs : List Char} {kind : TokenKind} {n : Nat}
  (hr : Lexer.read (rule.allowsRegex last) c cs = (kind, n))
include hr

theorem kindsFrom_trivia (hk : kind.isTrivia) :
    kindsFrom rule last (c :: cs) = kindsFrom rule last (cs.drop n) := by
  rw [kindsFrom, lexFrom_cons _ _ _ _ _ hr, significant, List.filter_cons_of_neg (by simp [hk]),
    ← significant, kindsFrom_eq, lastAfter, if_pos hk]

theorem kindsFrom_token (hk : kind.isTrivia = false) :
    kindsFrom rule last (c :: cs) = kind :: kindsFrom rule (some kind) (cs.drop n) := by
  have hend : kind ≠ .endOfText := by
    have := Lexer.read_ne_endOfText (rule.allowsRegex last) c cs
    rwa [hr] at this
  rw [kindsFrom, lexFrom_cons _ _ _ _ _ hr, significant,
    List.filter_cons_of_pos (by simp [hk, hend]), ← significant, List.map_cons, kindsFrom_eq,
    lastAfter, if_neg (by simp [hk])]

end

/-- The token at the end follows the others. -/
theorem meanings_lexFrom (rule : SlashRule) (last : Option TokenKind) (start : Nat)
    (cs : List Char) :
    meanings (lexFrom rule last start cs) = kindsFrom rule last cs ++ [.endOfText] := by
  match cs with
  | [] =>
    rw [lexFrom_nil, kindsFrom_nil]
    rfl
  | c :: cs =>
    rcases hr : Lexer.read (rule.allowsRegex last) c cs with ⟨kind, n⟩
    have ih := meanings_lexFrom rule (lastAfter last kind) (start + utf8Length (c :: cs.take n))
      (cs.drop n)
    rw [lexFrom_cons _ _ _ _ _ hr]
    cases hk : kind.isTrivia with
    | true =>
      rw [kindsFrom_trivia hr hk, meanings, List.filter_cons_of_neg (by simp [hk]), ← meanings, ih,
        lastAfter, if_pos hk]
    | false =>
      rw [kindsFrom_token hr hk, meanings, List.filter_cons_of_pos (by simp [hk]), List.map_cons,
        ← meanings, ih, lastAfter, if_neg (by simp [hk])]
      rfl
termination_by cs.length

/-- A text that is another one up to some place and then goes on with a blank. -/
def AgreesToBlank (cs cs' : List Char) : Prop :=
  cs' = cs ∨ ∃ n w more, isBlank w ∧ cs' = cs.take n ++ w :: more

theorem AgreesToBlank.append {cs cs' : List Char} (h : AgreesToBlank cs cs') (xs : List Char) :
    AgreesToBlank (xs ++ cs) (xs ++ cs') := by
  rcases h with rfl | ⟨n, w, more, hw, rfl⟩
  · exact .inl rfl
  · refine .inr ⟨xs.length + n, w, more, hw, ?_⟩
    rw [List.take_length_add_append, List.append_assoc]

/-- A literal that the text ends in takes up blanks behind the text, or leaves them. -/
theorem kindsFrom_unterminated_append {c : Char} {cs ws : List Char} {kind : TokenKind} {n : Nat}
    (hr : Lexer.read (rule.allowsRegex last) c cs = (kind, n)) (hk : kind.isTrivia = false)
    (hopen : kind.IsUnterminated) (hn : cs.length ≤ n) (hw : ∀ w ∈ ws, isBlank w) :
    kindsFrom rule last (c :: (cs ++ ws)) = [kind] := by
  have hterm : (Lexer.read (rule.allowsRegex last) c cs).1.IsUnterminated := by rwa [hr]
  obtain ⟨n', hn', hread⟩ := Lexer.read_append_blank hterm hw
  rw [hr] at hread hn'
  have hrest : ∀ w ∈ (cs ++ ws).drop n', isBlank w := by
    intro w hmem
    rw [List.drop_append, List.drop_eq_nil_of_le (Nat.le_trans hn hn'), List.nil_append] at hmem
    exact hw w (List.mem_of_mem_drop hmem)
  rw [kindsFrom_token hread hk, kindsFrom_of_blank hrest]

/-- A token keeps its meaning where the text behind it stays the same up to a blank. -/
theorem kindsFrom_token_append {c : Char} {cs cs' : List Char} {kind : TokenKind} {n : Nat}
    (hr : Lexer.read (rule.allowsRegex last) c cs = (kind, n)) (hk : kind.isTrivia = false)
    (h : AgreesToBlank (cs.drop n) cs') (hend : cs.drop n = [] → ∀ w ∈ cs', isBlank w) :
    kindsFrom rule last (c :: (cs.take n ++ cs')) = kind :: kindsFrom rule (some kind) cs' := by
  have hc : isBlank c = false := by
    by_contra hc
    rw [Lexer.read_blank (by simpa using hc)] at hr
    cases hr
    cases hk
  have hle : n ≤ cs.length := by
    have := Lexer.read_le (rule.allowsRegex last) c cs
    rwa [hr] at this
  rcases h with rfl | ⟨m, w, more, hw, rfl⟩
  · rw [List.take_append_drop, kindsFrom_token hr hk]
  by_cases hstay : Lexer.EndsIn (kind, n) cs
  · have hread : Lexer.read (rule.allowsRegex last) c (cs.take (n + m) ++ w :: more) =
        (kind, n) := by
      rw [Lexer.read_take_append hw hc, hr]
      · rw [hr]
        exact Nat.le_add_right n m
      · rwa [hr]
      · rw [hr]
        simp [hk]
    rw [List.take_add, List.append_assoc] at hread
    rw [kindsFrom_token hread hk, List.drop_left' (List.length_take_of_le hle)]
  · obtain ⟨hterm, hlength⟩ := not_or.1 hstay
    have hn := Nat.not_lt.1 hlength
    have hblank := hend (List.drop_eq_nil_of_le hn)
    rw [List.take_of_length_le hn, kindsFrom_unterminated_append hr hk (not_not.1 hterm) hn hblank,
      kindsFrom_of_blank hblank]

/-- A line comment goes on to the end of its line. -/
theorem kindsFrom_lineComment (cs : List Char) :
    kindsFrom rule last ('/' :: '/' :: cs) = kindsFrom rule last (cs.dropWhile (· ≠ '\n')) := by
  have hr : Lexer.read (rule.allowsRegex last) '/' ('/' :: cs) =
      (.comment (String.ofList (Text.trim (cs.takeWhile (· ≠ '\n')))),
        (cs.takeWhile (· ≠ '\n')).length + 1) := rfl
  rw [kindsFrom_trivia hr rfl, List.drop_succ_cons, drop_length_takeWhile]

/-- A block comment that is closed ends there, whatever follows. -/
theorem kindsFrom_blockComment {cs : List Char} (h : (Extent.ofBlockComment cs).closed)
    (cs' : List Char) :
    kindsFrom rule last ('/' :: '*' :: (cs.take (Extent.ofBlockComment cs).length ++ cs')) =
      kindsFrom rule last cs' := by
  have hclosed : Lexer.EndsIn (Lexer.readBlockComment cs) cs :=
    .inl (by simp [Lexer.readBlockComment, h, TokenKind.IsUnterminated])
  have hsame := Lexer.readBlockComment_take_append cs' (Nat.le_refl _) hclosed
  have hle := Extent.length_ofBlockComment_le cs
  have hr : Lexer.read (rule.allowsRegex last) '/'
      ('*' :: (cs.take (Extent.ofBlockComment cs).length ++ cs')) =
        ((Lexer.readBlockComment cs).1, (Lexer.readBlockComment cs).2 + 1) := by
    rw [← hsame]
    rfl
  have hk : (Lexer.readBlockComment cs).1.isTrivia := by
    simp [Lexer.readBlockComment, h, TokenKind.isTrivia]
  rw [kindsFrom_trivia hr hk, List.drop_succ_cons]
  exact congrArg (kindsFrom rule last) (List.drop_left' (List.length_take_of_le hle))

end

/-- What a text becomes, token by token, where one space is left of each run of trivia. -/
inductive Respaces (rule : SlashRule) :
    (last : Option TokenKind) → (behind : Bool) → (cs cs' : List Char) → Prop
  | done {last : Option TokenKind} {behind : Bool} : Respaces rule last behind [] []
  | trivia {last : Option TokenKind} {behind : Bool} {c : Char} {cs cs' : List Char}
      {kind : TokenKind} {n : Nat}
      (hr : Lexer.read (rule.allowsRegex last) c cs = (kind, n)) (hk : kind.isTrivia)
      (h : Respaces rule last true (cs.drop n) cs') :
      Respaces rule last behind (c :: cs) ((if behind then [] else [' ']) ++ cs')
  | token {last : Option TokenKind} {behind : Bool} {c : Char} {cs cs' : List Char}
      {kind : TokenKind} {n : Nat}
      (hr : Lexer.read (rule.allowsRegex last) c cs = (kind, n)) (hk : kind.isTrivia = false)
      (h : Respaces rule (some kind) false (cs.drop n) cs') :
      Respaces rule last behind (c :: cs) (c :: (cs.take n ++ cs'))

namespace Respaces
variable {rule : SlashRule} {last : Option TokenKind} {behind : Bool} {cs cs' : List Char}

private theorem agreesToBlank (h : Respaces rule last behind cs cs') (hb : behind = false) :
    AgreesToBlank cs cs' := by
  induction h with
  | done => exact .inl rfl
  | @trivia last behind c cs cs' kind n hr hk h ih =>
    subst hb
    exact .inr ⟨0, ' ', cs', rfl, rfl⟩
  | @token last behind c cs cs' kind n hr hk h ih =>
    have := (ih rfl).append (c :: cs.take n)
    rwa [List.cons_append, List.take_append_drop] at this

private theorem eq_nil (h : Respaces rule last behind [] cs') : cs' = [] := by
  cases h
  rfl

/-- The tokens that are left mean what they meant. -/
theorem kindsFrom_eq (h : Respaces rule last behind cs cs') :
    kindsFrom rule last cs' = kindsFrom rule last cs := by
  induction h with
  | done => rfl
  | @trivia last behind c cs cs' kind n hr hk h ih =>
    rw [kindsFrom_trivia hr hk, ← ih]
    cases behind with
    | true => rfl
    | false => exact kindsFrom_blank_cons rfl cs'
  | @token last behind c cs cs' kind n hr hk h ih =>
    have hend : cs.drop n = [] → ∀ w ∈ cs', isBlank w := by
      intro hnil
      rw [hnil] at h
      simp [h.eq_nil]
    rw [kindsFrom_token_append hr hk (h.agreesToBlank rfl) hend, ih, kindsFrom_token hr hk]

end Respaces

theorem exists_respaces (rule : SlashRule) (last : Option TokenKind) (behind : Bool)
    (before cs : List Char) :
    ∃ cs', Respaces rule last behind cs cs' ∧
      respaced (String.ofList (before ++ cs)) behind (lexFrom rule last (utf8Length before) cs) =
        String.ofList cs' := by
  match cs with
  | [] =>
    refine ⟨[], .done, ?_⟩
    rw [lexFrom_nil, List.append_nil, respaced, if_neg (by simp [TokenKind.isTrivia]),
      text_endOfText, respaced]
    rfl
  | c :: cs =>
    rcases hr : Lexer.read (rule.allowsRegex last) c cs with ⟨kind, n⟩
    obtain ⟨cs', h, hcs'⟩ := exists_respaces rule (lastAfter last kind) kind.isTrivia
      (before ++ c :: cs.take n) (cs.drop n)
    rw [append_take_append_drop] at hcs'
    rw [lexFrom_behind before hr, respaced, text_first]
    cases hk : kind.isTrivia with
    | true =>
      rw [hk] at h hcs'
      rw [lastAfter, if_pos hk] at h
      refine ⟨_, .trivia hr hk h, ?_⟩
      rw [if_pos rfl, hcs', String.ofList_append]
      cases behind <;> rfl
    | false =>
      rw [hk] at h hcs'
      rw [lastAfter, if_neg (by simp [hk])] at h
      refine ⟨_, .token hr hk h, ?_⟩
      rw [if_neg (by simp), hcs', ← String.ofList_append, List.cons_append]
termination_by cs.length

/-- So many characters are those of the first tokens of a text. -/
inductive Boundary (rule : SlashRule) : (last : Option TokenKind) → List Char → Nat → Prop
  | start {last : Option TokenKind} {cs : List Char} : Boundary rule last cs 0
  | behind {last : Option TokenKind} {c : Char} {cs : List Char} {kind : TokenKind} {n m : Nat}
      (hr : Lexer.read (rule.allowsRegex last) c cs = (kind, n))
      (h : Boundary rule (lastAfter last kind) (cs.drop n) m) :
      Boundary rule last (c :: cs) (n + m + 1)

/-- A character that is put into what `dropWhile` leaves is dropped again, or nothing is. -/
theorem dropWhile_spaced (p : Char → Bool) (xs : List Char) (m : Nat) (w : Char) :
    ((xs.dropWhile p).take m ++ w :: (xs.dropWhile p).drop m).dropWhile p =
        (xs.dropWhile p).take m ++ w :: (xs.dropWhile p).drop m ∨
      ((xs.dropWhile p).take m ++ w :: (xs.dropWhile p).drop m).dropWhile p = xs.dropWhile p := by
  have hstops := List.dropWhile_idempotent p xs
  cases hrest : xs.dropWhile p with
  | nil => by_cases hw : p w <;> simp [hw]
  | cons r rest =>
    rw [hrest] at hstops
    cases m with
    | zero => by_cases hw : p w <;> simp [hw, hstops]
    | succ m =>
      have hr : ¬p r := List.dropWhile_eq_self_iff.1 hstops (Nat.succ_pos _)
      simp [hr]

/-- Behind trivia one more character belongs to a line comment, or else to the text that follows. -/
theorem kindsFrom_trivia_spaced {rule : SlashRule} {last : Option TokenKind} {c w : Char}
    {cs : List Char} {kind : TokenKind} {n m : Nat}
    (hr : Lexer.read (rule.allowsRegex last) c cs = (kind, n)) (hk : kind.isTrivia)
    (h : kindsFrom rule last ((cs.drop n).take m ++ w :: (cs.drop n).drop m) =
      kindsFrom rule last (cs.drop n)) :
    kindsFrom rule last (c :: (cs.take n ++ ((cs.drop n).take m ++ w :: (cs.drop n).drop m))) =
      kindsFrom rule last (c :: cs) := by
  rw [kindsFrom_trivia hr hk, ← h]
  have hread : (Lexer.read (rule.allowsRegex last) c cs).1.isTrivia := by rwa [hr]
  rcases Lexer.read_isTrivia hread with hc | ⟨rfl, ⟨xs, rfl⟩ | ⟨xs, rfl, hclosed⟩⟩
  · rw [Lexer.read_blank hc] at hr
    obtain ⟨rfl, rfl⟩ := Prod.mk.inj hr
    rw [take_length_takeWhile, ← List.cons_append, kindsFrom_blank (forall_mem_blanks hc cs)]
  · obtain ⟨-, rfl⟩ := Prod.mk.inj hr
    have hnone (d : Char) (hd : d ∈ xs.takeWhile (· ≠ '\n')) : decide (d ≠ '\n') :=
      List.mem_takeWhile_imp (p := (· ≠ '\n')) hd
    have hdrop : ('/' :: xs).drop ((Lexer.readLineComment xs).2 + 1) =
        xs.dropWhile (· ≠ '\n') := by
      rw [List.drop_succ_cons]
      exact drop_length_takeWhile _ xs
    have htake : ('/' :: xs).take ((Lexer.readLineComment xs).2 + 1) =
        '/' :: xs.takeWhile (· ≠ '\n') := by
      rw [List.take_succ_cons]
      exact congrArg _ (take_length_takeWhile _ xs)
    rw [hdrop] at h ⊢
    rw [htake, List.cons_append, kindsFrom_lineComment, List.dropWhile_append_of_pos hnone]
    rcases dropWhile_spaced (· ≠ '\n') xs m w with hsame | hgone
    · rw [hsame]
    · rw [hgone, h]
  · obtain ⟨-, rfl⟩ := Prod.mk.inj hr
    exact kindsFrom_blockComment hclosed _

theorem Boundary.kindsFrom_eq {rule : SlashRule} {last : Option TokenKind} {cs : List Char}
    {m : Nat} (h : Boundary rule last cs m) {w : Char} (hw : isBlank w) :
    kindsFrom rule last (cs.take m ++ w :: cs.drop m) = kindsFrom rule last cs := by
  induction h with
  | start => exact kindsFrom_blank_cons hw _
  | @behind last c cs kind n m hr h ih =>
    rw [List.take_succ_cons, List.drop_succ_cons, List.take_add, ← List.drop_drop, List.cons_append,
      List.append_assoc]
    cases hk : kind.isTrivia with
    | true =>
      rw [lastAfter, if_pos hk] at ih
      exact kindsFrom_trivia_spaced hr hk ih
    | false =>
      rw [lastAfter, if_neg (by simp [hk])] at ih
      have hend (hnil : cs.drop n = []) :
          ∀ d ∈ (cs.drop n).take m ++ w :: (cs.drop n).drop m, isBlank d := by
        simpa [hnil] using hw
      rw [kindsFrom_token_append hr hk (.inr ⟨m, w, _, hw, rfl⟩) hend, ih, kindsFrom_token hr hk]

theorem exists_boundary (rule : SlashRule) (last : Option TokenKind) (before cs : List Char)
    (w : Char) (count : Nat) :
    ∃ m, Boundary rule last cs m ∧
      spaced (String.ofList (before ++ cs)) w count (lexFrom rule last (utf8Length before) cs) =
        String.ofList (cs.take m ++ w :: cs.drop m) := by
  match count, cs with
  | 0, cs =>
    refine ⟨0, .start, ?_⟩
    rw [spaced, List.take_zero, List.drop_zero, (cuts_lexFrom rule last before cs).texts]
    simp
  | count + 1, [] =>
    refine ⟨0, .start, ?_⟩
    rw [lexFrom_nil, spaced]
    simp [text_endOfText]
  | count + 1, c :: cs =>
    rcases hr : Lexer.read (rule.allowsRegex last) c cs with ⟨kind, n⟩
    obtain ⟨m, h, hm⟩ := exists_boundary rule (lastAfter last kind) (before ++ c :: cs.take n)
      (cs.drop n) w count
    refine ⟨_, .behind hr h, ?_⟩
    rw [append_take_append_drop, spaced] at hm
    rw [lexFrom_behind before hr, spaced, List.take_succ_cons, List.map_cons, String.join_cons,
      text_first, List.drop_succ_cons, String.append_assoc, String.append_assoc]
    rw [String.append_assoc] at hm
    rw [hm, ← String.ofList_append, List.take_succ_cons, List.drop_succ_cons, List.take_add,
      ← List.drop_drop, List.cons_append, List.cons_append, List.append_assoc]
termination_by cs.length

/-- Tokens of these kinds, at no place. -/
def unplaced (kinds : List TokenKind) : List Token := kinds.map fun kind => ⟨kind, ⟨0, 0⟩⟩

/-- What the tokens of a script mean decides, places aside, what the checks make of them. -/
theorem tokens_unplaced (source : String) :
    Fault.relocateOr nowhere (List.map (Token.relocate nowhere)) (tokens source) =
      checked (unplaced (kindsFrom .byContext none source.toList)) := by
  have hmoved : (significant (lex .byContext source)).map (Token.relocate nowhere) =
      unplaced (kindsFrom .byContext none source.toList) := by
    rw [unplaced, kindsFrom, List.map_map]
    rfl
  rw [tokens_eq_checked, ← checked_relocate, hmoved]

theorem readAlike_of_kinds {source source' : String}
    (h : kindsFrom .byContext none source'.toList = kindsFrom .byContext none source.toList) :
    ReadAlike source source' := by
  have htokens : Fault.relocateOr nowhere (List.map (Token.relocate nowhere)) (tokens source') =
      Fault.relocateOr nowhere (List.map (Token.relocate nowhere)) (tokens source) := by
    rw [tokens_unplaced, tokens_unplaced, h]
  refine ⟨?_, htokens, ?_⟩
  · rw [lex, lex, meanings_lexFrom, meanings_lexFrom, h]
  · rw [← expressions_relocate, ← expressions_relocate, htokens]

/-- A script is read as it was where one space stands for all that is between two of its tokens, and
where one more blank stands between two of them. -/
theorem respacing_readAlike (source : String) {w : Char} (hw : isBlank w) (count : Nat) :
    ReadAlike source (respaced source false (lex .byContext source)) ∧
      ReadAlike source (spaced source w count (lex .byContext source)) := by
  have hsource : String.ofList ([] ++ source.toList) = source := String.ofList_toList
  obtain ⟨cs', h, hrespaced⟩ := exists_respaces .byContext none false [] source.toList
  obtain ⟨m, hm, hspaced⟩ := exists_boundary .byContext none [] source.toList w count
  rw [hsource, utf8Length, ← lex] at hrespaced hspaced
  constructor
  · rw [hrespaced]
    refine readAlike_of_kinds ?_
    rw [String.toList_ofList, h.kindsFrom_eq]
  · rw [hspaced]
    refine readAlike_of_kinds ?_
    rw [String.toList_ofList, hm.kindsFrom_eq hw]

/-- The slash divides although a comment stands before it. -/
theorem readAlike_lineComment :
    isBlank '\t' ∧ ReadAlike "a//b\n/c" "a /c" ∧ ReadAlike "a//b\n/c" "a\t//b\n/c" := by
  have h := respacing_readAlike "a//b\n/c" (w := '\t') rfl 1
  have hrespaced : respaced "a//b\n/c" false (lex .byContext "a//b\n/c") = "a /c" := by
    decide +kernel
  have hspaced : spaced "a//b\n/c" '\t' 1 (lex .byContext "a//b\n/c") = "a\t//b\n/c" := by
    decide +kernel
  rw [hrespaced, hspaced] at h
  exact ⟨rfl, h⟩

end DesignTokens.Script
