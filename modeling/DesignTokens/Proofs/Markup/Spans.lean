import DesignTokens.Proofs.Markup.Offsets

/-! # Where attributes stand

Every attribute of a text stands where the scan by offsets says: its value between two quotes, and
the pieces of its value between blanks. -/
namespace DesignTokens.Markup
open Text (Behind slice utf8Length isBlank)

namespace Spaced
variable {offset : Nat} {ws : List Word} {cs : List Char}

theorem le_start (h : Spaced offset ws cs) {w : Word} (hw : w ∈ ws) : offset ≤ w.start := by
  induction h with
  | blank _ => cases hw
  | last _ hstart _ =>
    rw [List.mem_singleton.1 hw, hstart]
    exact Nat.le_add_right _ _
  | @cons offset gap first c ws cs _ hstart _ _ _ ih =>
    rcases List.mem_cons.1 hw with rfl | hw
    · rw [hstart]
      exact Nat.le_add_right _ _
    · have hrest := ih hw
      rw [Word.stop, hstart] at hrest
      omega

/-- A blank keeps two words apart. -/
theorem pairwise_stop_lt (h : Spaced offset ws cs) :
    ws.Pairwise fun w next => w.stop < next.start := by
  induction h with
  | blank _ => exact .nil
  | last _ _ _ => exact List.pairwise_singleton _ _
  | @cons offset gap w c ws cs _ _ _ _ h ih =>
    refine List.pairwise_cons.2 ⟨fun next hnext => ?_, ih⟩
    have hpos := c.utf8Size_pos
    have hle := h.le_start hnext
    omega

end Spaced

namespace Placed
variable {source cs rest : List Char} {offset : Nat} {ws : List Word}

/-- Words are parts of their text. -/
theorem slice_eq (h : Placed offset ws cs) (hcs : Behind source offset (cs ++ rest)) {w : Word}
    (hw : w ∈ ws) : slice source w.start w.stop = .ok w.text := by
  induction h generalizing rest with
  | nil => cases hw
  | @cons offset gap first ws cs hstart _ _ ih =>
    have hfirst : Behind source first.start (first.text ++ (cs ++ rest)) := by
      rw [hstart]
      exact Behind.append (by simpa using hcs)
    rcases List.mem_cons.1 hw with rfl | hw
    · exact hfirst.slice_eq
    · exact ih hfirst.append hw

end Placed

namespace Stretches
variable {before cs : List Char} {segments : List Segment} {a : Attribute}

private theorem length_lt_start (h : Stretches before cs segments)
    (ha : a ∈ segments.filterMap Segment.attribute?) : utf8Length before < a.start := by
  induction h with
  | nil => cases ha
  | @value before cs s segments hs h ih =>
    rcases List.mem_cons.1 ha with rfl | ha
    · obtain ⟨q, behind, hlead, -⟩ := eq_of_sighting? hs
      obtain ⟨tail, htail, -⟩ := hlead.exists_cons
      exact Nat.lt_add_of_pos_right (Text.utf8Length_pos (htail ▸ List.cons_ne_nil _ _))
    · have hrest := ih ha
      rw [Text.utf8Length_append] at hrest
      omega
  | plain hnone h ih =>
    have hrest := ih ha
    rw [Text.utf8Length_append] at hrest
    omega

/-- A value ends in front of the lead of the next one. -/
theorem pairwise_stop_lt (h : Stretches before cs segments) :
    (segments.filterMap Segment.attribute?).Pairwise fun a next => a.stop < next.start := by
  induction h with
  | nil => exact .nil
  | @value before cs s segments hs h ih =>
    refine List.pairwise_cons.2 ⟨fun next hnext => ?_, ih⟩
    have hlt := h.length_lt_start hnext
    rwa [Text.utf8Length_append, Text.utf8Length_append, ← Nat.add_assoc] at hlt
  | plain hnone h ih => exact ih

end Stretches

namespace Offsets

/-- A value stands in a text between two quotes, and is made up of its pieces and of blanks. -/
structure Found.StandsIn (a : Found) (source : List Char) : Prop where
  quoted : ∃ quote, isQuote quote = true ∧ slice source (a.start - 1) a.start = .ok [quote] ∧
    slice source a.stop (a.stop + 1) = .ok [quote]
  spaced : ∃ value, slice source a.start a.stop = .ok value ∧
    Spaced a.start (a.pieces.map Piece.word) value
  sliced : ∀ piece ∈ a.pieces, piece.word.text ≠ [] ∧
    slice source piece.word.start piece.word.stop = .ok piece.word.text
  increasing : a.pieces.Pairwise fun piece next => piece.word.stop < next.word.start

theorem Found.standsIn {a : Attribute} {source : List Char} (h : a.SeenIn source) :
    (Found.of a).StandsIn source := by
  have hspaced := h.spaced
  obtain ⟨before, cs, s, hsource, hs, rfl⟩ := h
  obtain ⟨q, behind, hlead, -, hrest, hcs⟩ := eq_of_sighting? hs
  obtain ⟨front, c, hfront, -⟩ := hlead.exists_last
  set a := s.attribute (utf8Length before) with ha
  have hone : utf8Length [q.quote] = 1 := Offsets.utf8Size_of_isQuote hlead.isQuote
  have hopen : Behind source (utf8Length (before ++ (front ++ [c])))
      ([q.quote] ++ (a.value ++ ([q.quote] ++ behind))) := by
    refine ⟨before ++ (front ++ [c]), ?_, rfl⟩
    rw [hsource, hcs, hfront, hrest]
    simp [Attribute.value, ha, Sighting.attribute]
  have hstart : a.start = utf8Length (before ++ (front ++ [c])) + utf8Length [q.quote] := by
    rw [← Text.utf8Length_append, List.append_assoc, ← hfront, Text.utf8Length_append]
    rfl
  have hvalue : Behind source a.start (a.value ++ ([q.quote] ++ behind)) := hstart ▸ hopen.append
  refine ⟨⟨q.quote, hlead.isQuote, ?_, ?_⟩, ⟨a.value, hvalue.slice_eq, hspaced⟩, ?_, ?_⟩
  · have hquote : (Found.of a).start - 1 = utf8Length (before ++ (front ++ [c])) := by
      rw [Found.of, hstart, hone, Nat.add_sub_cancel]
    have hslice := hopen.slice_eq
    rw [← hstart] at hslice
    rwa [hquote]
  · have hslice := hvalue.append.slice_eq
    rwa [hone] at hslice
  · intro piece hpiece
    have hword : piece.word ∈ a.pieces.map Piece.word := List.mem_map_of_mem hpiece
    exact ⟨hspaced.placed.text_ne_nil hword, hspaced.placed.slice_eq hvalue hword⟩
  · exact List.pairwise_map.1 hspaced.pairwise_stop_lt

theorem pairwise_found (source : List Char) :
    ((Markup.attributes source).map Found.of).Pairwise fun a next => a.stop < next.start :=
  List.pairwise_map.2 (stretches_segments source).pairwise_stop_lt

theorem standsIn_of_mem {source : List Char} {a : Found}
    (h : a ∈ (Markup.attributes source).map Found.of) : a.StandsIn source := by
  obtain ⟨a, ha, rfl⟩ := List.mem_map.1 h
  exact Found.standsIn (seenIn_of_mem ha)

end Offsets
end DesignTokens.Markup
