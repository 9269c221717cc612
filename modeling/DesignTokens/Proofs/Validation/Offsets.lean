import DesignTokens.Proofs.Markup.Spans
import DesignTokens.Proofs.Validation.Examination
import DesignTokens.Proofs.Validation.Rewriting
import DesignTokens.Validation.Offsets

/-! # The check by byte offsets

The check by offsets says what the check says character by character, and every part that it takes
is one that the text has. -/
namespace DesignTokens
open Markup (Attribute Piece Replaces Word)
open Markup.Offsets (Found)
open Text (Behind slice sliceFrom sliceTo utf8Length)
open Utility (Entry Variants colonLength)

namespace Utility.Offsets

theorem colonStop_eq (stop openBrackets offset : Nat) (text : List Char) :
    colonStop stop openBrackets offset text =
      if colonLength openBrackets text = 0 then stop
      else offset + utf8Length (text.take (colonLength openBrackets text)) := by
  induction text generalizing stop openBrackets offset with
  | nil => rfl
  | cons c text ih =>
    rw [colonStop, colonLength, ih]
    generalize (if c = '[' then openBrackets + 1 else if c = ']' then openBrackets - 1
      else openBrackets) = inside
    cases colonLength inside text with
    | zero =>
      by_cases hc : c = ':' ∧ openBrackets = 0
      · obtain ⟨rfl, rfl⟩ := hc
        rfl
      · simp [hc]
    | succ n => simp [utf8Length, Nat.add_assoc]

theorem cut_eq {text front rest : List Char} {stop : Nat} (htext : text = front ++ rest)
    (hstop : stop = utf8Length front) : cut text stop = .ok ⟨front, rest⟩ := by
  rw [htext, hstop, cut, Text.sliceTo_utf8Length, Behind.sliceFrom_eq ⟨front, rfl, rfl⟩]
  rfl

theorem split_eq (text : List Char) : split text = .ok (Variants.split text) := by
  have hstop : colonStop 0 0 0 text = utf8Length (text.take (colonLength 0 text)) := by
    rw [colonStop_eq]
    split
    · rename_i hzero
      rw [hzero]
      rfl
    · exact Nat.zero_add _
  have hbehind : Behind text (utf8Length (text.take (colonLength 0 text)))
      (text.drop (colonLength 0 text)) := ⟨_, (List.take_append_drop _ _).symm, rfl⟩
  rw [split, hstop, hbehind.sliceFrom_eq, Variants.split]
  generalize colonLength 0 text = n at *
  change (if (text.drop n).head? = some '!' then _ else _) = _
  split
  · rename_i hmark
    obtain ⟨utility, hutility⟩ := List.head?_eq_some_iff.1 hmark
    have hlead : text.take (n + 1) = text.take n ++ ['!'] := by
      rw [List.take_add_one, ← List.head?_drop, hmark]
      rfl
    have htext : text = text.take (n + 1) ++ utility := by
      rw [hlead, List.append_assoc, List.singleton_append, ← hutility, List.take_append_drop]
    rw [hutility, cut_eq htext (by rw [hlead, Text.utf8Length_append]; rfl)]
    rfl
  · rename_i hmark
    rw [cut_eq (List.take_append_drop n text).symm rfl]
    split
    · rename_i hutility
      exact absurd (hutility ▸ rfl) hmark
    · rfl

theorem remainder_eq {e : Entry} {utility : List Char} (h : e.fits utility = true) :
    remainder e utility = .ok (e.remainder utility) := by
  obtain ⟨value, rfl⟩ := Entry.prefix_of_fits h
  rw [remainder, Entry.remainder]
  split
  · rw [List.drop_left, ← Text.utf8Length_toList]
    exact Behind.sliceFrom_eq ⟨_, rfl, rfl⟩
  · rfl

end Utility.Offsets

namespace Validation.Offsets
variable {v : Validator} {source : List Char}

theorem split_eq (v : Validator) (text : List Char) : split v text = .ok (v.split text) := by
  rw [split, Validator.split]
  split
  · exact Utility.Offsets.split_eq text
  · rfl

theorem examine_eq (v : Validator) (text : List Char) : examine v text = .ok (v.examine text) := by
  rw [examine]
  split
  · rename_i harbitrary
    rw [Validator.examine_of_arbitrary (by simpa using harbitrary)]
  · rename_i harbitrary
    rw [split_eq]
    dsimp only [bind, Except.bind]
    cases hfind : v.table.find? (v.split text).utility with
    | none =>
      have hnone : v.examine text = none := by
        rw [Validator.examine, if_neg harbitrary]
        dsimp only
        rw [hfind]
      rw [hnone]
      rfl
    | some e =>
      obtain ⟨-, hfits, -⟩ := Utility.Table.longest_of_find? hfind
      dsimp only
      rw [Utility.Offsets.remainder_eq hfits,
        Validator.examine_of_find? (by simpa using harbitrary) rfl hfind]
      rfl

/-- What is kept of some pieces and what is reported on them. -/
theorem foldlM_keep (pieces : List Piece) (k : Kept) :
    pieces.foldlM (Kept.step v source) k =
      .ok ⟨k.texts ++ (pieces.filter v.keeps).map fun piece => piece.word.text,
        k.rejections ++ (pieces.filterMap Piece.name?).filterMap (v.reject? source)⟩ := by
  induction pieces generalizing k with
  | nil =>
    simp only [List.filter_nil, List.filterMap_nil, List.map_nil, List.append_nil]
    rfl
  | cons p pieces ih =>
    rw [List.foldlM_cons]
    cases p with
    | dynamic word =>
      have hkeeps : v.keeps (.dynamic word) = true := rfl
      refine (ih _).trans ?_
      rw [List.filterMap_cons_none (f := Piece.name?) rfl]
      simp [hkeeps, Piece.word]
    | name word =>
      rw [Kept.step, examine_eq]
      cases hfound : v.examine word.text with
      | none =>
        have hkeeps : v.keeps (.name word) = true := by
          simp [Validator.keeps, Piece.name?, Validator.accepts, hfound]
        refine (ih _).trans ?_
        simp [hkeeps, Piece.name?, Piece.word, Validator.reject?, hfound]
      | some finding =>
        have hkeeps : v.keeps (.name word) = false := by
          simp [Validator.keeps, Piece.name?, Validator.accepts, hfound]
        refine (ih _).trans ?_
        simp [hkeeps, Piece.name?, Validator.reject?, hfound]

/-- A value with a refused class is written anew, behind the text in front of it. -/
theorem step_copy {s : Copy} {a : Attribute} {front : List Char}
    (h : slice source s.copied a.start = .ok front) :
    s.step v source (.of a) = .ok (if a.words.all fun word => v.accepts word.text then s
      else ⟨s.code ++ front ++ v.rewritten a, a.stop,
        s.rejections ++ a.words.filterMap (v.reject? source)⟩) := by
  rw [Copy.step, Validator.rewritten]
  change (a.pieces.foldlM (Kept.step v source) ⟨[], []⟩ >>= _) = _
  rw [foldlM_keep]
  change (if ([] ++ a.words.filterMap (v.reject? source)).isEmpty then _ else _) = _
  rw [List.nil_append, Validator.isEmpty_filterMap_reject?]
  split
  · rfl
  · rw [show slice source s.copied (Found.of a).start = _ from h]
    rfl

/-- The values of a text are written anew one after the other. The text that is neither written nor
replaced yet is `pending`. -/
theorem foldlM_copy {offset : Nat} {as : List Attribute} {cs ds : List Char}
    (h : Replaces v.rewritten offset as cs ds) (s : Copy) (pending : List Char)
    (hpending : Behind source s.copied (pending ++ cs))
    (hoffset : offset = s.copied + utf8Length pending) :
    ∃ s' rest, (as.map Found.of).foldlM (Copy.step v source) s = .ok s' ∧
      Behind source s'.copied rest ∧ s'.code ++ rest = s.code ++ (pending ++ ds) ∧
      s'.rejections =
        s.rejections ++ (as.flatMap Attribute.words).filterMap (v.reject? source) := by
  induction h generalizing s pending with
  | nil => exact ⟨s, _, rfl, hpending, rfl, by simp⟩
  | @cons offset gap a as cs ds hstart h ih =>
    have hfront : Behind source s.copied (pending ++ gap ++ (a.value ++ cs)) := by
      rwa [List.append_assoc]
    have hstart : a.start = s.copied + utf8Length (pending ++ gap) := by
      rw [hstart, hoffset, Text.utf8Length_append, Nat.add_assoc]
    have hslice := hfront.slice_eq
    rw [← hstart] at hslice
    rw [List.map_cons, List.foldlM_cons, step_copy hslice]
    dsimp only [bind, Except.bind]
    split
    -- A value that stays as it is becomes part of what is pending.
    · rename_i hwords
      have hnone : a.words.filterMap (v.reject? source) = [] := by
        rw [← List.isEmpty_iff, Validator.isEmpty_filterMap_reject?, hwords]
      obtain ⟨s', rest, hrun, hrest, hcode, hrejections⟩ :=
        ih s (pending ++ gap ++ a.value) (by simpa using hpending)
          (by rw [Attribute.stop, hstart, Text.utf8Length_append _ a.value, Nat.add_assoc])
      refine ⟨s', rest, hrun, hrest, ?_, ?_⟩
      · rw [hcode, Validator.rewritten, if_pos hwords]
        simp
      · rw [hrejections, List.flatMap_cons, List.filterMap_append, hnone, List.nil_append]
    · have hstop : Behind source a.stop cs := by
        rw [Attribute.stop, hstart]
        exact hfront.append.append
      obtain ⟨s', rest, hrun, hrest, hcode, hrejections⟩ := ih
        ⟨s.code ++ (pending ++ gap) ++ v.rewritten a, a.stop,
          s.rejections ++ a.words.filterMap (v.reject? source)⟩ [] hstop rfl
      refine ⟨s', rest, hrun, hrest, ?_, ?_⟩
      · rw [hcode]
        simp
      · rw [hrejections, List.flatMap_cons, List.filterMap_append, List.append_assoc]

/-- The check by offsets takes no part that the text or a class does not have, and says what the
check says. -/
theorem checkSource_eq (v : Validator) (source : String) :
    checkSource v source = .ok (v.checkSource source) := by
  have hall : Behind source.toList 0 ([] ++ source.toList) := Behind.zero source.toList
  obtain ⟨s, rest, hrun, hrest, hcode, hrejections⟩ :=
    foldlM_copy (Validator.replaces_code (v := v) source) ⟨[], 0, []⟩ [] hall rfl
  rw [checkSource, Markup.Offsets.attributes_eq]
  dsimp only [bind, Except.bind]
  rw [hrun]
  dsimp only
  rw [hrest.sliceFrom_eq, hrejections]
  dsimp only
  rw [hcode, List.nil_append, List.nil_append, String.ofList_toList]
  rfl

/-- The scan of a text and its check take no part that is outside the text, ends inside a character
or ends before it begins. The attributes that are found stand apart from each other, each of them
between two quotes, and each is made up of its pieces and of blanks. -/
theorem spans_wellFormed (v : Validator) (source : String) :
    let text := source.toList
    let found := (Markup.attributes text).map Found.of
    Markup.Offsets.attributes text = .ok found ∧
      (found.Pairwise fun a next => a.stop < next.start) ∧
      (∀ a ∈ found, a.StandsIn text) ∧
      Markup.Offsets.classes text = .ok (found.flatMap fun a => a.pieces.filterMap Piece.name?) ∧
      checkSource v source = .ok (v.checkSource source) := by
  intro text found
  have hfound : Markup.Offsets.attributes text = .ok found := Markup.Offsets.attributes_eq text
  refine ⟨hfound, Markup.Offsets.pairwise_found text,
    fun a => Markup.Offsets.standsIn_of_mem, ?_, checkSource_eq v source⟩
  rw [Markup.Offsets.classes_eq, List.flatMap_map]
  rfl

/-- Behind a first attribute stand one that is not closed and, inside of what would be its value,
a template in braces with a blank in its interpolation. -/
def brokenSource : String :=
  "é class=\"p \u00a0ü\" class='className=\x7b `$\x7bx y\x7d n` >"

def brokenFound : List Found :=
  [⟨"class", 10, 16, [.name ⟨['p'], 10⟩, .name ⟨['ü'], 14⟩]⟩,
    ⟨"className", 38, 46, [.dynamic ⟨"$\x7bx y\x7d".toList, 38⟩, .name ⟨['n'], 45⟩]⟩]

theorem spans_wellFormed_broken :
    Markup.Offsets.attributes brokenSource.toList = .ok brokenFound ∧
      (brokenFound.Pairwise fun a next => a.stop < next.start) ∧
      ∀ a ∈ brokenFound, a.StandsIn brokenSource.toList := by
  have hbroken : Markup.Offsets.attributes brokenSource.toList = .ok brokenFound := by
    decide +kernel
  obtain ⟨hfound, happart, hstands, -⟩ :=
    spans_wellFormed (.standard Families.empty) brokenSource
  have hsame := Except.ok.inj (hfound.symm.trans hbroken)
  rw [hsame] at happart hstands
  exact ⟨hbroken, happart, hstands⟩

end Validation.Offsets
end DesignTokens
