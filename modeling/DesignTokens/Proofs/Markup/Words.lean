import DesignTokens.Markup.ClassList
import Mathlib.Data.List.Basic

/-! # The words of a text

Words have at least one character and no blanks, and such words are found again in a text where a
space stands between each two of them. -/
namespace DesignTokens.Markup
open Text (isBlank)

/-- What can be a word. -/
def IsWord (text : List Char) : Prop := text ≠ [] ∧ ∀ c ∈ text, isBlank c = false

/-- The run that a blank or the end of the text ends. -/
def endWord (start : Nat) (run : List Char) : List Word :=
  if run.isEmpty then [] else [⟨run.reverse, start⟩]

theorem endWord_reverse {text : List Char} (h : text ≠ []) (start : Nat) :
    endWord start text.reverse = [⟨text, start⟩] := by
  rw [endWord, if_neg (by simpa using h), List.reverse_reverse]

theorem wordsFrom_nil (start : Nat) (run : List Char) :
    wordsFrom start run [] = endWord start run := rfl

theorem wordsFrom_blank {c : Char} (hc : isBlank c = true) (start : Nat) (run cs : List Char) :
    wordsFrom start run (c :: cs) =
      endWord start run ++ wordsFrom (start + Text.utf8Length run + c.utf8Size) [] cs :=
  if_pos hc

theorem wordsFrom_append {text : List Char} (h : ∀ c ∈ text, isBlank c = false) (start : Nat)
    (run cs : List Char) :
    wordsFrom start run (text ++ cs) = wordsFrom start (text.reverse ++ run) cs := by
  induction text generalizing run with
  | nil => rfl
  | cons c text ih =>
    obtain ⟨hc, htext⟩ := List.forall_mem_cons.1 h
    rw [List.cons_append, wordsFrom, if_neg (by simp [hc]), ih htext]
    simp

/-- A blank ends the words in front of it, and those behind it are cut as if the text began there. -/
theorem wordsFrom_append_blank {c : Char} (hc : isBlank c = true) (start : Nat)
    (run xs ys : List Char) : wordsFrom start run (xs ++ c :: ys) =
      wordsFrom start run xs ++ wordsFrom
        (start + Text.utf8Length run + Text.utf8Length xs + c.utf8Size) [] ys := by
  induction xs generalizing start run with
  | nil => rw [List.nil_append, wordsFrom_blank hc, wordsFrom_nil, Text.utf8Length, Nat.add_zero]
  | cons x xs ih =>
    rw [List.cons_append]
    cases hx : isBlank x with
    | true =>
      have hoffset : start + Text.utf8Length run + x.utf8Size + Text.utf8Length [] +
          Text.utf8Length xs = start + Text.utf8Length run + Text.utf8Length (x :: xs) := by
        simp only [Text.utf8Length]
        omega
      rw [wordsFrom_blank hx, wordsFrom_blank hx, ih, hoffset, List.append_assoc]
    | false =>
      have hoffset : start + Text.utf8Length (x :: run) + Text.utf8Length xs =
          start + Text.utf8Length run + Text.utf8Length (x :: xs) := by
        simp only [Text.utf8Length]
        omega
      rw [wordsFrom, if_neg (by simp [hx]), wordsFrom, if_neg (by simp [hx]), ih, hoffset]

theorem isWord_of_mem_endWord {start : Nat} {run : List Char} {w : Word}
    (hrun : ∀ c ∈ run, isBlank c = false) (h : w ∈ endWord start run) : IsWord w.text := by
  rw [endWord] at h
  split at h
  · cases h
  · rename_i hne
    obtain rfl := List.mem_singleton.1 h
    exact ⟨by simpa using hne, by simpa using hrun⟩

private theorem isWord_of_mem_wordsFrom {start : Nat} {run cs : List Char} {w : Word}
    (hrun : ∀ c ∈ run, isBlank c = false) (h : w ∈ wordsFrom start run cs) : IsWord w.text := by
  induction cs generalizing start run with
  | nil => exact isWord_of_mem_endWord hrun h
  | cons c cs ih =>
    cases hc : isBlank c with
    | true =>
      rw [wordsFrom_blank hc] at h
      rcases List.mem_append.1 h with h | h
      · exact isWord_of_mem_endWord hrun h
      · exact ih (by simp) h
    | false =>
      rw [wordsFrom, if_neg (by simp [hc])] at h
      exact ih (List.forall_mem_cons.2 ⟨hc, hrun⟩) h

theorem isWord_of_mem_words {text : List Char} {start : Nat} {w : Word}
    (h : w ∈ words text start) : IsWord w.text :=
  isWord_of_mem_wordsFrom (by simp) h

/-- Words with a space between each two of them are found again. -/
theorem text_words_intercalate {texts : List (List Char)} (h : ∀ text ∈ texts, IsWord text)
    (start : Nat) : (words ([' '].intercalate texts) start).map Word.text = texts := by
  induction texts generalizing start with
  | nil => rfl
  | cons text texts ih =>
    obtain ⟨⟨hne, hblank⟩, htexts⟩ := List.forall_mem_cons.1 h
    cases texts with
    | nil =>
      have hword := wordsFrom_append hblank start [] []
      rw [List.append_nil, List.append_nil, wordsFrom_nil, endWord_reverse hne] at hword
      rw [List.intercalate_singleton, words, hword]
      rfl
    | cons next texts =>
      rw [List.intercalate_cons_cons, List.append_assoc, words, wordsFrom_append hblank,
        List.append_nil, List.singleton_append, wordsFrom_blank (by decide), endWord_reverse hne]
      exact congrArg (text :: ·) (ih htexts _)

end DesignTokens.Markup
