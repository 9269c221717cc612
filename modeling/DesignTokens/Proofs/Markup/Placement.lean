import DesignTokens.Proofs.Markup.Segments
import DesignTokens.Proofs.Markup.Words
import DesignTokens.Proofs.Text
import Mathlib.Algebra.Ring.Nat

/-! # Where words and values stand

Words stand in their text one behind the other, each at its offset. Between the words of a value
there are blanks and nothing else, and between the values of a text there is what no replacement of
values changes. -/
namespace DesignTokens.Markup
open Text (Position utf8Length isBlank utf8Length_pos)

/-- Words stand in a text that begins at an offset, none of them reaching into the next. -/
inductive Placed : Nat → List Word → List Char → Prop
  | nil {offset : Nat} {cs : List Char} : Placed offset [] cs
  | cons {offset : Nat} {gap : List Char} {w : Word} {ws : List Word} {cs : List Char}
      (hstart : w.start = offset + utf8Length gap) (hne : w.text ≠ [])
      (h : Placed w.stop ws cs) : Placed offset (w :: ws) (gap ++ (w.text ++ cs))

namespace Placed
variable {offset : Nat} {ws ws' : List Word} {cs cs' : List Char}

theorem behind (before : List Char) (h : Placed (offset + utf8Length before) ws cs) :
    Placed offset ws (before ++ cs) := by
  cases h with
  | nil => exact nil
  | cons hstart hne h =>
    rw [← List.append_assoc]
    exact cons (by rw [hstart, Text.utf8Length_append, Nat.add_assoc]) hne h

theorem append (h : Placed offset ws cs) (h' : Placed (offset + utf8Length cs) ws' cs') :
    Placed offset (ws ++ ws') (cs ++ cs') := by
  induction h with
  | nil => exact h'.behind _
  | @cons offset gap w ws cs hstart hne _ ih =>
    have hrest : Placed (w.stop + utf8Length cs) ws' cs' := by
      rw [Text.utf8Length_append, Text.utf8Length_append] at h'
      rwa [Word.stop, hstart, Nat.add_assoc, Nat.add_assoc]
    rw [List.append_assoc, List.append_assoc]
    exact cons hstart hne (ih hrest)

theorem sublist (h : Placed offset ws cs) (hsub : ws'.Sublist ws) : Placed offset ws' cs := by
  induction h generalizing ws' with
  | nil =>
    rw [List.sublist_nil.1 hsub]
    exact nil
  | @cons offset gap w ws cs hstart hne _ ih =>
    rcases List.sublist_cons_iff.1 hsub with hsub | ⟨rest, rfl, hrest⟩
    · have hrest := ih hsub
      rw [Word.stop, hstart, Nat.add_assoc, ← Text.utf8Length_append] at hrest
      rw [← List.append_assoc]
      exact hrest.behind _
    · exact cons hstart hne (ih hrest)

theorem text_ne_nil (h : Placed offset ws cs) {w : Word} (hw : w ∈ ws) : w.text ≠ [] := by
  induction h with
  | nil => cases hw
  | cons _ hne _ ih =>
    rcases List.mem_cons.1 hw with rfl | hw
    · exact hne
    · exact ih hw

/-- What stands in front of a word reaches up to it. -/
theorem exists_front (h : Placed offset ws cs) {w : Word} (hw : w ∈ ws) :
    ∃ front behind, cs = front ++ (w.text ++ behind) ∧ w.start = offset + utf8Length front := by
  induction h with
  | nil => cases hw
  | @cons offset gap w' ws cs hstart hne _ ih =>
    rcases List.mem_cons.1 hw with rfl | hw
    · exact ⟨gap, cs, rfl, hstart⟩
    · obtain ⟨front, behind, rfl, hfront⟩ := ih hw
      refine ⟨gap ++ (w'.text ++ front), behind, by simp, ?_⟩
      rw [hfront, Word.stop, hstart]
      simp only [Text.utf8Length_append, Nat.add_assoc]

/-- The position of a word is reached behind all that stands in front of it. -/
theorem exists_position (before : List Char) (h : Placed (utf8Length before) ws cs) {w : Word}
    (hw : w ∈ ws) : ∃ front behind, cs = front ++ (w.text ++ behind) ∧
      Position.ofOffset (before ++ cs) w.start =
        (before ++ front).foldl Position.advance ⟨1, 1⟩ := by
  obtain ⟨front, behind, rfl, hstart⟩ := h.exists_front hw
  rw [← Text.utf8Length_append] at hstart
  exact ⟨front, behind, rfl, Position.ofOffset_eq (List.append_assoc _ _ _).symm hstart⟩

/-- The position of a word leads to it. -/
theorem marks {text : List Char} (h : Placed 0 ws text) {w : Word} (hw : w ∈ ws) :
    ∃ behind, (Position.ofOffset text w.start).Marks text (w.text ++ behind) := by
  obtain ⟨front, behind, htext, hposition⟩ := exists_position [] h hw
  refine ⟨behind, ?_⟩
  rw [List.nil_append, List.nil_append] at hposition
  rw [hposition, htext]
  exact Position.marks_foldl front (w.text ++ behind)

/-- The positions of words come in the order of the text. -/
theorem pairwise_position (before : List Char) (h : Placed (utf8Length before) ws cs) :
    ws.Pairwise fun w w' => (Position.ofOffset (before ++ cs) w.start).Before
      (Position.ofOffset (before ++ cs) w'.start) := by
  generalize hoffset : utf8Length before = offset at h
  induction h generalizing before with
  | nil => exact .nil
  | @cons offset gap w ws cs hstart hne h ih =>
    have hbehind : utf8Length (before ++ (gap ++ w.text)) = w.stop := by
      simp only [Text.utf8Length_append, hoffset, Word.stop, hstart, Nat.add_assoc]
    have htext : before ++ (gap ++ (w.text ++ cs)) = before ++ (gap ++ w.text) ++ cs := by simp
    have hfirst : Position.ofOffset (before ++ (gap ++ (w.text ++ cs))) w.start =
        (before ++ gap).foldl Position.advance ⟨1, 1⟩ :=
      Position.ofOffset_eq (List.append_assoc _ _ _).symm
        (by rw [hstart, ← hoffset, Text.utf8Length_append])
    refine List.pairwise_cons.2 ⟨fun w' hw' => ?_, htext ▸ ih _ hbehind⟩
    rw [← hbehind] at h
    obtain ⟨front, behind, -, hposition⟩ := h.exists_position _ hw'
    have hlater : before ++ (gap ++ w.text) ++ front = before ++ gap ++ (w.text ++ front) := by simp
    rw [hfirst, htext, hposition, hlater, List.foldl_append (l := before ++ gap)]
    exact Position.before_foldl (by simp [hne]) _

end Placed

theorem areBlank_nil : AreBlank [] := fun _ h => absurd h List.not_mem_nil

/-- A text from an offset on is made up of words and of the blanks around them, and at least one
blank stands between two words. -/
inductive Spaced : Nat → List Word → List Char → Prop
  | blank {offset : Nat} {gap : List Char} (hgap : AreBlank gap) : Spaced offset [] gap
  | last {offset : Nat} {gap : List Char} {w : Word} (hgap : AreBlank gap)
      (hstart : w.start = offset + utf8Length gap) (hne : w.text ≠ []) :
      Spaced offset [w] (gap ++ w.text)
  | cons {offset : Nat} {gap : List Char} {w : Word} {c : Char} {ws : List Word} {cs : List Char}
      (hgap : AreBlank gap) (hstart : w.start = offset + utf8Length gap) (hne : w.text ≠ [])
      (hc : isBlank c = true) (h : Spaced (w.stop + c.utf8Size) ws cs) :
      Spaced offset (w :: ws) (gap ++ (w.text ++ c :: cs))

namespace Spaced
variable {offset : Nat} {ws : List Word} {cs : List Char}

theorem placed (h : Spaced offset ws cs) : Placed offset ws cs := by
  induction h with
  | blank _ => exact .nil
  | @last offset gap w _ hstart hne =>
    rw [← List.append_nil w.text]
    exact .cons hstart hne .nil
  | @cons offset gap w c ws cs _ hstart hne _ _ ih =>
    exact .cons hstart hne (Placed.behind [c] ih)

private theorem behind_blank {c : Char} (hc : isBlank c = true)
    (h : Spaced (offset + c.utf8Size) ws cs) : Spaced offset ws (c :: cs) := by
  have hcons {gap : List Char} (hgap : AreBlank gap) : AreBlank (c :: gap) :=
    List.forall_mem_cons.2 ⟨hc, hgap⟩
  have hmove {gap : List Char} {w : Word}
      (hstart : w.start = offset + c.utf8Size + utf8Length gap) :
      w.start = offset + utf8Length (c :: gap) := by rw [hstart, utf8Length, Nat.add_assoc]
  cases h with
  | blank hgap => exact blank (hcons hgap)
  | last hgap hstart hne => exact last (hcons hgap) (hmove hstart) hne
  | cons hgap hstart hne hc' h => exact cons (hcons hgap) (hmove hstart) hne hc' h

/-- The end of a text ends the word before it. -/
theorem endWord (start : Nat) (run : List Char) :
    Spaced start (endWord start run) run.reverse := by
  rw [Markup.endWord]
  split
  · rename_i hrun
    rw [List.isEmpty_iff.1 hrun]
    exact blank areBlank_nil
  · rename_i hrun
    exact last areBlank_nil rfl (by simpa using hrun)

/-- A blank ends the word before it. -/
theorem endWord_append {start : Nat} {run : List Char} {c : Char} (hc : isBlank c = true)
    (h : Spaced (start + utf8Length run + c.utf8Size) ws cs) :
    Spaced start (Markup.endWord start run ++ ws) (run.reverse ++ c :: cs) := by
  rw [Markup.endWord]
  split
  · rename_i hrun
    rw [List.isEmpty_iff.1 hrun] at h ⊢
    exact behind_blank hc h
  · rename_i hrun
    refine cons areBlank_nil rfl (by simpa using hrun) hc ?_
    rwa [Word.stop, Text.utf8Length_reverse]

/-- Words with a space between each two of them take no more than the text that they are from: one
byte a word is enough for what is around them. -/
theorem sum_le (h : Spaced offset ws cs) :
    (ws.map fun w => utf8Length w.text + 1).sum ≤ utf8Length cs + 1 := by
  induction h with
  | blank _ => simp
  | last _ _ _ => simp
  | @cons offset gap w c ws cs _ _ _ _ _ ih =>
    have hc := c.utf8Size_pos
    simp only [List.map_cons, List.sum_cons, Text.utf8Length_append, utf8Length]
    omega

end Spaced

private theorem spaced_wordsFrom (start : Nat) (run cs : List Char) :
    Spaced start (wordsFrom start run cs) (run.reverse ++ cs) := by
  induction cs generalizing start run with
  | nil =>
    rw [List.append_nil]
    exact .endWord start run
  | cons c cs ih =>
    cases hc : isBlank c with
    | true =>
      rw [wordsFrom_blank hc]
      exact .endWord_append hc (ih _ [])
    | false =>
      rw [wordsFrom, if_neg (by simp [hc])]
      simpa using ih start (c :: run)

/-- A text is made up of its words and of blanks. -/
theorem spaced_words (text : List Char) (start : Nat) : Spaced start (words text start) text :=
  spaced_wordsFrom start [] text

theorem Atom.text_ne_nil (a : Atom) : a.text ≠ [] := by
  cases a <;> simp [Atom.text]

theorem Piece.word_ofRun (start : Nat) (run : List Atom) :
    (Piece.ofRun start run).map Piece.word = endWord start (run.flatMap Atom.text).reverse := by
  cases run with
  | nil => rfl
  | cons a run =>
    have hne : (a :: run).flatMap Atom.text ≠ [] := by simp [a.text_ne_nil]
    rw [endWord_reverse hne, Piece.ofRun, if_neg (by simp), List.map_singleton,
      apply_ite Piece.word]
    exact congrArg (fun w => [w]) (ite_self _)

private theorem spaced_piecesFrom {as : List Atom}
    (hblank : ∀ c, Atom.blank c ∈ as → isBlank c = true) (start : Nat) (run : List Atom) :
    Spaced start ((piecesFrom start run as).map Piece.word)
      (run.reverse.flatMap Atom.text ++ as.flatMap Atom.text) := by
  induction as generalizing start run with
  | nil =>
    rw [piecesFrom, Piece.word_ofRun, List.flatMap_nil, List.append_nil]
    simpa using Spaced.endWord start (run.reverse.flatMap Atom.text).reverse
  | cons a as ih =>
    have hrest := ih fun c hc => hblank c (List.mem_cons_of_mem a hc)
    rw [piecesFrom]
    split
    · rename_i ha
      obtain ⟨c, rfl⟩ : ∃ c, a = .blank c := by cases a <;> simp_all [Atom.isBlank]
      have hword := @Spaced.endWord_append _ _ start (run.reverse.flatMap Atom.text).reverse _
        (hblank c List.mem_cons_self) (hrest _ [])
      rw [List.map_append, Piece.word_ofRun]
      simpa [Text.utf8Length_reverse, Atom.text, utf8Length] using hword
    · simpa using hrest start (a :: run)

namespace Attribute

private theorem sublist_words (a : Attribute) : a.words.Sublist (a.pieces.map Piece.word) := by
  rw [words]
  induction a.pieces with
  | nil => exact .slnil
  | cons piece pieces ih =>
    cases piece with
    | name word => exact ih.cons_cons word
    | dynamic word => exact ih.cons word

end Attribute

/-- A text becomes another one by what is put in the place of the values of some attributes, which
stand in it from an offset on. All that is in front of a value or behind the last one is kept. -/
inductive Replaces (new : Attribute → List Char) :
    Nat → List Attribute → List Char → List Char → Prop
  | nil {offset : Nat} {cs : List Char} : Replaces new offset [] cs cs
  | cons {offset : Nat} {gap : List Char} {a : Attribute} {as : List Attribute} {cs ds : List Char}
      (hstart : a.start = offset + utf8Length gap) (h : Replaces new a.stop as cs ds) :
      Replaces new offset (a :: as) (gap ++ (a.value ++ cs)) (gap ++ (new a ++ ds))

namespace Replaces
variable {new : Attribute → List Char} {offset : Nat} {as : List Attribute} {cs ds : List Char}

theorem behind (before : List Char) (h : Replaces new (offset + utf8Length before) as cs ds) :
    Replaces new offset as (before ++ cs) (before ++ ds) := by
  cases h with
  | nil => exact nil
  | cons hstart h =>
    rw [← List.append_assoc before, ← List.append_assoc before]
    exact cons (by rw [hstart, Text.utf8Length_append, Nat.add_assoc]) h

theorem placed (h : Replaces new offset as cs ds)
    (hspaced : ∀ a ∈ as, Spaced a.start (a.pieces.map Piece.word) a.value) :
    Placed offset (as.flatMap Attribute.words) cs := by
  induction h with
  | nil => exact .nil
  | @cons offset gap a as cs ds hstart _ ih =>
    obtain ⟨ha, has⟩ := List.forall_mem_cons.1 hspaced
    rw [hstart] at ha
    refine Placed.behind gap ((ha.placed.sublist a.sublist_words).append ?_)
    rw [← hstart]
    exact ih has

theorem length_le (h : Replaces new offset as cs ds)
    (hnew : ∀ a ∈ as, utf8Length (new a) ≤ utf8Length a.value) :
    utf8Length ds ≤ utf8Length cs := by
  induction h with
  | nil => exact Nat.le_refl _
  | cons _ _ ih =>
    obtain ⟨ha, has⟩ := List.forall_mem_cons.1 hnew
    have hrest := ih has
    simp only [Text.utf8Length_append]
    omega

theorem length_lt (h : Replaces new offset as cs ds)
    (hnew : ∀ a ∈ as, utf8Length (new a) ≤ utf8Length a.value)
    (hless : ∃ a ∈ as, utf8Length (new a) < utf8Length a.value) :
    utf8Length ds < utf8Length cs := by
  induction h with
  | nil => simp at hless
  | cons _ h ih =>
    obtain ⟨ha, has⟩ := List.forall_mem_cons.1 hnew
    simp only [Text.utf8Length_append]
    rcases (List.exists_mem_cons_iff _ _ _).1 hless with hless | hless
    · have hrest := h.length_le has
      omega
    · have hrest := ih has hless
      omega

end Replaces

/-- A stretch with something else in the place of its value. -/
def Segment.replaced (new : Attribute → List Char) : Segment → List Char
  | plain text => text
  | value a => new a

theorem Stretches.replaces (new : Attribute → List Char) {before cs : List Char}
    {segments : List Segment} (h : Stretches before cs segments) :
    Replaces new (utf8Length before) (segments.filterMap Segment.attribute?) cs
      (segments.flatMap (Segment.replaced new)) := by
  induction h with
  | nil => exact .nil
  | @value before cs s segments hs h ih =>
    obtain ⟨q, behind, -, -, -, hcs⟩ := eq_of_sighting? hs
    rw [Text.utf8Length_append, Text.utf8Length_append, ← Nat.add_assoc] at ih
    rw [hcs]
    exact .cons rfl ih
  | @plain before c cs segments hnone h ih =>
    rw [Text.utf8Length_append] at ih
    exact Replaces.behind [c] ih

/-- The values of a source text stand at the offsets of their attributes. -/
theorem replaces_segments (new : Attribute → List Char) (source : List Char) :
    Replaces new 0 (attributes source) source
      ((segments source).flatMap (Segment.replaced new)) :=
  (stretches_segments source).replaces new

theorem Attribute.SeenIn.spaced {source : List Char} {a : Attribute} (h : a.SeenIn source) :
    Spaced a.start (a.pieces.map Piece.word) a.value := by
  obtain ⟨before, cs, s, -, hs, rfl⟩ := h
  obtain ⟨q, behind, -, hspells, -, -⟩ := eq_of_sighting? hs
  exact spaced_piecesFrom (fun c hc => hspells.fits (.blank c) hc) _ []

/-- A value is made up of its pieces and of blanks. -/
theorem spaced_pieces {source : List Char} {a : Attribute} (h : a ∈ attributes source) :
    Spaced a.start (a.pieces.map Piece.word) a.value := (seenIn_of_mem h).spaced

/-- The classes of a source text stand in it at their offsets. -/
theorem placed_classes (source : List Char) : Placed 0 (classes source) source :=
  (replaces_segments Attribute.value source).placed fun _ => spaced_pieces

end DesignTokens.Markup
