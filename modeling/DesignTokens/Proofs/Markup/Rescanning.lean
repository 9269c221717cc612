import DesignTokens.Proofs.Markup.Spans

/-! # Values that are put together anew

A value that is put together from some of the pieces of another one is read in the place of that
one, and has just these pieces. -/
namespace DesignTokens.Markup.Offsets
open Text (Behind BadSlice sliceFrom sliceTo utf8Length)

/-- A text with something else between two byte offsets. -/
def splice (text : List Char) (start stop : Nat) (part : List Char) :
    Except BadSlice (List Char) := do
  let front ← sliceTo text start
  let rest ← sliceFrom text stop
  return front ++ part ++ rest

private theorem splice_eq {text front value rest : List Char} {start stop : Nat}
    (htext : text = front ++ (value ++ rest)) (hstart : start = utf8Length front)
    (hstop : stop = start + utf8Length value) (part : List Char) :
    splice text start stop part = .ok (front ++ part ++ rest) := by
  have hvalue : Behind text start (value ++ rest) := ⟨front, htext, hstart⟩
  rw [splice, hstop, hvalue.append.sliceFrom_eq, htext, hstart, Text.sliceTo_utf8Length]
  rfl

/-- The text of a value with some pieces and a space between them. -/
def joined (pieces : List Piece) : List Char :=
  [' '].intercalate (pieces.map fun piece => piece.word.text)

/-- Some pieces of a value come from some of its runs. -/
theorem exists_runs {start : Nat} {as : List Atom} {kept : List Piece}
    (h : kept.Sublist (piecesFrom start [] as)) :
    ∃ rs, rs.Sublist (runs as) ∧ kept.map Piece.unplaced = rs.map Piece.ofAtoms ∧
      joined kept = (ofRuns rs).flatMap Atom.text := by
  have hsublist := h.map Piece.unplaced
  rw [unplaced_piecesFrom] at hsublist
  obtain ⟨rs, hrs, hkept⟩ := List.sublist_map_iff.1 hsublist
  refine ⟨rs, hrs, hkept, ?_⟩
  have htexts := congrArg (List.map fun piece => piece.word.text) hkept
  simp only [List.map_map, Function.comp_def, Piece.word_unplaced, Piece.word_ofAtoms] at htexts
  rw [joined, htexts, text_ofRuns]

private theorem mem_places {name : String} {q : Quoting} {lead : List Char} (h : IsLead name q lead)
    (before value : List Char) : utf8Length before ∈ places (before ++ (lead ++ value)) := by
  obtain ⟨front, hfront, -⟩ := placesFrom_append 0 before (lead ++ value)
  obtain ⟨within, hlead, -⟩ := placesFrom_lead h (utf8Length before) [] value
  rw [List.append_nil] at hlead
  rw [places, hfront, Nat.zero_add, hlead]
  exact List.mem_append_right front List.mem_cons_self

/-- An attribute whose value is put together from some of its pieces, with a space between each two
of them, is read where it was read before, under the same name and with just these pieces. -/
theorem rescans_kept {source : List Char} {found : List Found} {a : Found} {kept : List Piece}
    (hfound : attributes source = .ok found) (ha : a ∈ found) (hkept : kept.Sublist a.pieces) :
    ∃ place source' pieces,
      place ∈ places source ∧ attributeAt source place = .ok (some a) ∧
      splice source a.start a.stop (joined kept) = .ok source' ∧
      place ∈ places source' ∧ attributeAt source' place =
        .ok (some ⟨a.name, a.start, a.start + utf8Length (joined kept), pieces⟩) ∧
      pieces.map Piece.unplaced = kept.map Piece.unplaced := by
  obtain rfl : (Markup.attributes source).map .of = found :=
    Except.ok.inj ((attributes_eq source).symm.trans hfound)
  obtain ⟨a, hmem, rfl⟩ := List.mem_map.1 ha
  obtain ⟨before, cs, s, rfl, hs, rfl⟩ := seenIn_of_mem hmem
  obtain ⟨hprevious, q, value, hlead, rfl, hread⟩ := exists_lead_of_sighting? hs
  obtain ⟨hspells, rfl, hclose⟩ := Quoting.spells_of_atoms? hread
  obtain ⟨behind, hbehind⟩ := List.head?_eq_some_iff.1 hclose
  obtain ⟨rs, hrs, hunplaced, hjoined⟩ := exists_runs hkept
  have hsight : sighting? before.getLast? (s.lead ++ (joined kept ++ s.rest)) =
      some ⟨s.name, s.lead, ofRuns rs, s.rest⟩ := by
    have hspells' : q.Spells (ofRuns rs) :=
      .ofRuns fun r hr => hspells.of_mem_runs (hrs.subset hr)
    rw [hlead.sighting? hprevious, hjoined, hbehind, Quoting.atoms?_append hlead.isQuote hspells']
    rfl
  refine ⟨utf8Length before, before ++ (s.lead ++ (joined kept ++ s.rest)),
    piecesFrom (utf8Length before + utf8Length s.lead) [] (ofRuns rs),
    mem_places hlead before _, ?_, ?_, mem_places hlead before _, ?_, ?_⟩
  · rw [attributeAt_eq before (hlead.isPrefixOf _), hs]
    rfl
  · refine (splice_eq (List.append_assoc _ _ _).symm ?_ rfl _).trans ?_
    · exact (Text.utf8Length_append _ _).symm
    · simp
  · rw [attributeAt_eq before (hlead.isPrefixOf _), hsight, hjoined]
    rfl
  · rw [unplaced_piecesFrom, hunplaced]
    exact congrArg (List.map Piece.ofAtoms)
      (runs_ofRuns fun r hr => isRun_of_mem_runs (hrs.subset hr))

/-- A template in braces behind a character of two bytes, with a blank in its interpolation and a
backtick that is no end. -/
def templateSource : List Char := "é class=\x7b`p  $\x7bx y\x7d \\`q`\x7d".toList

def templateAttribute : Found :=
  ⟨"class", 11, 24, [.name ⟨"p".toList, 11⟩, .dynamic ⟨"$\x7bx y\x7d".toList, 14⟩,
    .name ⟨"\\`q".toList, 21⟩]⟩

theorem rescans_kept_template :
    attributes templateSource = .ok [templateAttribute] ∧
    templateAttribute.pieces.tail.Sublist templateAttribute.pieces ∧
    ∃ place source' pieces,
      place ∈ places templateSource ∧
      attributeAt templateSource place = .ok (some templateAttribute) ∧
      splice templateSource 11 24 (joined templateAttribute.pieces.tail) = .ok source' ∧
      place ∈ places source' ∧ attributeAt source' place = .ok (some
        ⟨"class", 11, 11 + utf8Length (joined templateAttribute.pieces.tail), pieces⟩) ∧
      pieces.map Piece.unplaced = templateAttribute.pieces.tail.map Piece.unplaced := by
  have hfound : attributes templateSource = .ok [templateAttribute] := by decide +kernel
  have hkept := List.tail_sublist templateAttribute.pieces
  exact ⟨hfound, hkept, rescans_kept hfound List.mem_cons_self hkept⟩

end DesignTokens.Markup.Offsets
