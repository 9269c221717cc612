import DesignTokens.Proofs.Script.Lexemes
import DesignTokens.Proofs.Script.Relocation
import DesignTokens.Script.Document
import Mathlib.Data.List.TakeWhile

/-! # The run of the lexer

What the lexer finds depends on the offset of a text by a shift only, on the token before it only by
whether a regular expression may follow, and not on the blanks in front. -/
namespace DesignTokens.Script
open Text (Span utf8Length utf8Length_append isBlank)

theorem lexFrom_nil (rule : SlashRule) (last : Option TokenKind) (start : Nat) :
    lexFrom rule last start [] = [⟨.endOfText, ⟨start, start⟩⟩] := by
  rw [lexFrom]

theorem lexFrom_cons (rule : SlashRule) (last : Option TokenKind) (start : Nat) (c : Char)
    (cs : List Char) {kind : TokenKind} {length : Nat}
    (h : Lexer.read (rule.allowsRegex last) c cs = (kind, length)) :
    lexFrom rule last start (c :: cs) =
      ⟨kind, ⟨start, start + utf8Length (c :: cs.take length)⟩⟩ ::
        lexFrom rule (lastAfter last kind) (start + utf8Length (c :: cs.take length))
          (cs.drop length) := by
  rw [lexFrom, h]

/-- Tokens are found at places counted from where the text begins. -/
theorem lexFrom_relocate (rule : SlashRule) (last : Option TokenKind) (k start : Nat)
    (cs : List Char) :
    lexFrom rule last (k + start) cs =
      (lexFrom rule last start cs).map (Token.relocate (k + ·)) := by
  match cs with
  | [] =>
    rw [lexFrom_nil, lexFrom_nil]
    rfl
  | c :: cs =>
    rcases hr : Lexer.read (rule.allowsRegex last) c cs with ⟨kind, length⟩
    rw [lexFrom_cons _ _ _ _ _ hr, lexFrom_cons _ _ _ _ _ hr, Nat.add_assoc,
      lexFrom_relocate rule _ k _ (cs.drop length), List.map_cons]
    rfl
termination_by cs.length

/-- The token before a text matters only by whether it allows a regular expression. -/
theorem lexFrom_congr {rule : SlashRule} {last last' : Option TokenKind}
    (h : rule.allowsRegex last = rule.allowsRegex last') (start : Nat) (cs : List Char) :
    lexFrom rule last start cs = lexFrom rule last' start cs := by
  match cs with
  | [] => rw [lexFrom_nil, lexFrom_nil]
  | c :: cs =>
    rcases hr : Lexer.read (rule.allowsRegex last) c cs with ⟨kind, length⟩
    have hr' : Lexer.read (rule.allowsRegex last') c cs = (kind, length) := by rw [← h, hr]
    have hafter : rule.allowsRegex (lastAfter last kind) =
        rule.allowsRegex (lastAfter last' kind) := by
      unfold lastAfter
      split
      · exact h
      · rfl
    rw [lexFrom_cons _ _ _ _ _ hr, lexFrom_cons _ _ _ _ _ hr',
      lexFrom_congr hafter _ (cs.drop length)]
termination_by cs.length

theorem significant_append (xs ys : List Token) :
    significant (xs ++ ys) = significant xs ++ significant ys :=
  List.filter_append ..

theorem significant_relocate (f : Nat → Nat) (ts : List Token) :
    significant (ts.map (Token.relocate f)) = (significant ts).map (Token.relocate f) :=
  List.filter_map ..

theorem take_length_takeWhile (p : Char → Bool) (cs : List Char) :
    cs.take (cs.takeWhile p).length = cs.takeWhile p :=
  (List.prefix_iff_eq_take.1 (List.takeWhile_prefix p)).symm

theorem drop_length_takeWhile (p : Char → Bool) (cs : List Char) :
    cs.drop (cs.takeWhile p).length = cs.dropWhile p := by
  have h : (cs.takeWhile p ++ cs.dropWhile p).drop (cs.takeWhile p).length = cs.dropWhile p :=
    List.drop_left
  rwa [List.takeWhile_append_dropWhile] at h

theorem forall_mem_blanks {c : Char} (hc : isBlank c) (cs : List Char) :
    ∀ d ∈ c :: cs.takeWhile isBlank, isBlank d :=
  List.forall_mem_cons.2 ⟨hc, fun _ hd => List.mem_takeWhile_imp hd⟩

section
variable (rule : SlashRule) (last : Option TokenKind) (start : Nat)

/-- The blanks at the front of a text are no token that means something. -/
theorem significant_lexFrom_dropWhile (cs : List Char) :
    significant (lexFrom rule last start cs) =
      significant (lexFrom rule last (start + utf8Length (cs.takeWhile isBlank))
        (cs.dropWhile isBlank)) := by
  cases cs with
  | nil => rfl
  | cons c cs =>
    by_cases hc : isBlank c
    · have hr := Lexer.read_blank hc (rule.allowsRegex last) cs
      rw [lexFrom_cons _ _ _ _ _ hr, take_length_takeWhile, drop_length_takeWhile,
        List.takeWhile_cons_of_pos hc, List.dropWhile_cons_of_pos hc]
      rfl
    · rw [List.takeWhile_cons_of_neg hc, List.dropWhile_cons_of_neg hc]
      rfl

theorem significant_lexFrom_blank {xs : List Char} (hx : ∀ c ∈ xs, isBlank c) (ys : List Char) :
    significant (lexFrom rule last start (xs ++ ys)) =
      significant (lexFrom rule last (start + utf8Length xs) ys) := by
  rw [significant_lexFrom_dropWhile, List.takeWhile_append_of_pos hx,
    List.dropWhile_append_of_pos hx, utf8Length_append, ← Nat.add_assoc,
    ← significant_lexFrom_dropWhile]

end

end DesignTokens.Script
