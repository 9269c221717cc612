import DesignTokens.Markup.Offsets
import DesignTokens.Proofs.Markup.Placement

/-! # The scan by byte offsets

The scan by offsets finds what is found character by character, and every part that it takes is one
that the text has. -/
namespace DesignTokens.Markup.Offsets
open Text (Behind BadSlice charAt? slice sliceFrom sliceTo utf8Length isBlank)

variable {source cs : List Char} {offset : Nat}

theorem skipBlank_behind (h : Behind source offset cs) :
    Behind source (skipBlank source offset) (Markup.skipBlank cs) := by
  induction cs generalizing offset with
  | nil =>
    rw [skipBlank.eq_def, h.charAt?_eq]
    exact h
  | cons c cs ih =>
    rw [skipBlank.eq_def, h.charAt?_eq, Markup.skipBlank, List.dropWhile_cons]
    dsimp only [List.head?_cons]
    split
    · exact ih h.tail
    · exact h

/-- Braces that are not closed are skipped up to the end of the text. -/
theorem skipBraces_behind (h : Behind source offset cs) (openBraces : Nat) :
    Behind source (skipBraces source openBraces offset)
      (cs.drop ((codeLength openBraces cs).getD cs.length)) := by
  have hmore (cs : List Char) (length : Option Nat) :
      (length.map (· + 1)).getD (cs.length + 1) = length.getD cs.length + 1 := by
    cases length <;> rfl
  induction cs generalizing offset openBraces with
  | nil =>
    rw [skipBraces.eq_def, h.charAt?_eq]
    exact h
  | cons c cs ih =>
    rw [skipBraces.eq_def, h.charAt?_eq, codeLength, List.length_cons]
    dsimp only [List.head?_cons]
    split
    · rw [hmore]
      exact ih h.tail _
    · split
      · split
        · exact h.tail
        · rw [hmore]
          exact ih h.tail _
      · rw [hmore]
        exact ih h.tail _

/-- A run without blanks, held in reverse, begins at `start` and ends at `offset`, and `cs` stands
behind it. -/
structure Running (source : List Char) (start : Nat) (run : List Atom) (offset : Nat)
    (cs : List Char) : Prop where
  behind_start : Behind source start (run.reverse.flatMap Atom.text ++ cs)
  offset_eq : offset = start + utf8Length (run.reverse.flatMap Atom.text)

namespace Running
variable {start : Nat} {run : List Atom} {a : Atom}

theorem fresh (h : Behind source offset cs) : Running source offset [] offset cs := ⟨h, rfl⟩

theorem behind (h : Running source start run offset cs) : Behind source offset cs := by
  rw [h.offset_eq]
  exact h.behind_start.append

theorem slice_eq (h : Running source start run offset cs) :
    slice source start offset = .ok (run.reverse.flatMap Atom.text) := by
  rw [h.offset_eq]
  exact h.behind_start.slice_eq

theorem start_eq (h : Running source start run offset cs) (hrun : run = []) : start = offset := by
  rw [h.offset_eq, hrun]
  rfl

theorem push (h : Running source start run offset (a.text ++ cs)) {stop : Nat}
    (hstop : Behind source stop cs) : Running source start (a :: run) stop cs where
  behind_start := by simpa using h.behind_start
  offset_eq := by
    rw [hstop.offset_unique h.behind.append, h.offset_eq]
    simp [Nat.add_assoc]

end Running

/-- The scan of a value behind some pieces and a run that begins at `start`. -/
def Scan.within (pieces : List Piece) (start : Nat) (run : List Atom) : Scan :=
  ⟨pieces, if run.isEmpty then none else some start, run.any Atom.isInterpolation⟩

/-- What a scan behind some pieces and a run comes to if the rest of the value is read. -/
def Scan.outcome (source : List Char) (pieces : List Piece) (start : Nat) (run : List Atom)
    (read : Option (List Atom × List Char)) : Option (List Piece × Nat) :=
  read.map fun (as, rest) =>
    (pieces ++ piecesFrom start run as, utf8Length source - utf8Length rest)

namespace Scan
variable {pieces : List Piece} {start : Nat} {run : List Atom}
  {read : Option (List Atom × List Char)}

theorem endWord_within (h : Running source start run offset cs) (start' : Nat) :
    (within pieces start run).endWord source offset =
      .ok (within (pieces ++ Piece.ofRun start run.reverse) start' []) := by
  cases run with
  | nil =>
    exact congrArg (fun ps => Except.ok (Scan.mk ps none false)) (List.append_nil pieces).symm
  | cons a run =>
    rw [Piece.ofRun, if_neg (by simp), List.any_reverse]
    simp only [endWord, within, List.isEmpty_cons, Bool.false_eq_true, if_false, h.slice_eq]
    rfl

/-- The word of a run begins where the run begins, which is here if the run is empty. -/
theorem beginWord_within (h : Running source start run offset cs) {a : Atom}
    (ha : a.isInterpolation = false) :
    (within pieces start run).beginWord offset = within pieces start (a :: run) := by
  cases run with
  | nil => simp [beginWord, within, ha, h.start_eq]
  | cons b run => simp [beginWord, within, ha]

private theorem beginWord_within_interpolation (h : Running source start run offset cs)
    (code : List Char) : { (within pieces start run).beginWord offset with dynamic := true } =
      within pieces start (.interpolation code :: run) := by
  cases run with
  | nil => simp [beginWord, within, Atom.isInterpolation, h.start_eq]
  | cons b run => simp [beginWord, within, Atom.isInterpolation]

private theorem outcome_blank (h : Running source start run offset cs) (c : Char) :
    outcome source pieces start run (read.map fun (as, rest) => (.blank c :: as, rest)) =
      outcome source (pieces ++ Piece.ofRun start run.reverse) (offset + c.utf8Size) [] read := by
  rw [outcome, outcome, Option.map_map, h.offset_eq]
  refine congrArg (fun f => Option.map f read) (funext fun p => Prod.ext ?_ rfl)
  exact (List.append_assoc _ _ _).symm

private theorem outcome_cons {a : Atom} (ha : a.isBlank = false) :
    outcome source pieces start run (read.map fun (as, rest) => (a :: as, rest)) =
      outcome source pieces start (a :: run) read := by
  rw [outcome, outcome, Option.map_map]
  refine congrArg (fun f => Option.map f read) (funext fun p => Prod.ext ?_ rfl)
  exact congrArg (pieces ++ ·) (if_neg (by simp [ha]))

end Scan

theorem opensBraces_eq (h : Behind source offset cs) (q : Quoting) (c : Char) :
    opensBraces source q c offset =
      .ok (q.quote = '`' && c = '$' && cs.head? = some '\x7b') := by
  rw [opensBraces, h.sliceFrom_eq]
  split
  · rename_i hc
    rw [hc]
    rfl
  · rename_i hc
    rw [Bool.eq_false_iff.2 hc]
    rfl

/-- An interpolation is skipped whatever it holds. -/
theorem scanValue_interpolation {q : Quoting} {start : Nat} {run : List Atom} {code : List Char}
    (h : Running source start run offset ('$' :: '\x7b' :: code)) (hq : q.quote = '`')
    (pieces : List Piece) (read : List Char) :
    scanValue source q (.within pieces start run) offset =
      scanValue source q (.within pieces start (.interpolation read :: run))
        (skipBraces source 1 (offset + '$'.utf8Size + '\x7b'.utf8Size)) := by
  rw [scanValue.eq_def, h.behind.charAt?_eq]
  dsimp only [List.head?_cons]
  rw [if_neg (by rw [hq]; decide), if_neg (by decide), if_neg (by simp),
    opensBraces_eq h.behind.tail, hq, ← Scan.beginWord_within_interpolation h read]
  rfl

/-- A value is scanned as its atoms are read. -/
theorem scanValue_eq (q : Quoting) {start : Nat} {run : List Atom}
    (h : Running source start run offset cs) (pieces : List Piece) :
    scanValue source q (.within pieces start run) offset =
      .ok (Scan.outcome source pieces start run (q.atoms? cs)) := by
  -- The cases are those of the reader, and `Running` is what each step of the scan keeps.
  fun_induction Quoting.atoms? q cs generalizing pieces start run offset with
  | case1 =>
    rw [scanValue.eq_def, h.behind.charAt?_eq]
    rfl
  | case2 cs =>
    rw [scanValue.eq_def, h.behind.charAt?_eq]
    dsimp only [List.head?_cons]
    rw [if_pos rfl, Scan.endWord_within h 0, h.behind.offset_eq]
    rfl
  | case3 c cs hquote hblank ih =>
    rw [scanValue.eq_def, h.behind.charAt?_eq]
    dsimp only [List.head?_cons]
    rw [if_neg hquote, if_pos hblank, Scan.endWord_within h (offset + c.utf8Size),
      Scan.outcome_blank h]
    exact ih (.fresh h.behind.tail) _
  | case4 c hquote hblank hescapes =>
    rw [scanValue.eq_def, h.behind.charAt?_eq]
    dsimp only [List.head?_cons]
    rw [if_neg hquote, if_neg hblank, if_pos hescapes, h.behind.tail.charAt?_eq]
    dsimp only [List.head?_nil]
    rw [scanValue.eq_def, h.behind.tail.charAt?_eq]
    rfl
  | case5 c hquote hblank hescapes d cs ih =>
    obtain rfl : c = '\\' := by simpa using (Bool.and_eq_true_iff.1 hescapes).2
    rw [scanValue.eq_def, h.behind.charAt?_eq]
    dsimp only [List.head?_cons]
    rw [if_neg hquote, if_neg hblank, if_pos hescapes, h.behind.tail.charAt?_eq,
      Scan.beginWord_within h (a := .escaped d) rfl, Scan.outcome_cons rfl]
    exact ih (Running.push (a := .escaped d) h h.behind.tail.tail) _
  | case6 c cs hquote hblank hescapes hopens hcode =>
    obtain ⟨⟨hq, rfl⟩, hbrace⟩ : (q.quote = '`' ∧ c = '$') ∧ cs.head? = some '\x7b' := by
      simpa using hopens
    obtain ⟨code, rfl⟩ := List.head?_eq_some_iff.1 hbrace
    have hskip := skipBraces_behind h.behind.tail.tail 1
    rw [show codeLength 1 code = none from hcode, Option.getD_none, List.drop_length] at hskip
    rw [scanValue_interpolation h hq pieces code, scanValue.eq_def, hskip.charAt?_eq]
    rfl
  | case7 c cs hquote hblank hescapes hopens n hn ih =>
    obtain ⟨⟨hq, rfl⟩, hbrace⟩ : (q.quote = '`' ∧ c = '$') ∧ cs.head? = some '\x7b' := by
      simpa using hopens
    obtain ⟨code, rfl⟩ := List.head?_eq_some_iff.1 hbrace
    have hskip := skipBraces_behind h.behind.tail.tail 1
    rw [show codeLength 1 code = some n from hn, Option.getD_some] at hskip
    have hcode : (Atom.interpolation (code.take n)).text ++ code.drop n = '$' :: '\x7b' :: code :=
      congrArg (fun cs => '$' :: '\x7b' :: cs) (List.take_append_drop n code)
    rw [scanValue_interpolation h hq pieces (code.take n), Scan.outcome_cons rfl]
    exact ih (Running.push (hcode ▸ h) hskip) _
  | case8 c cs hquote hblank hescapes hopens ih =>
    rw [scanValue.eq_def, h.behind.charAt?_eq]
    dsimp only [List.head?_cons]
    rw [if_neg hquote, if_neg hblank, if_neg hescapes, opensBraces_eq h.behind.tail,
      Bool.eq_false_iff.2 hopens, Scan.beginWord_within h (a := .char c) rfl,
      Scan.outcome_cons rfl]
    exact ih (Running.push (a := .char c) h h.behind.tail) _

theorem utf8Size_of_isQuote {c : Char} (h : isQuote c = true) : c.utf8Size = 1 := by
  rcases eq_of_isQuote h with rfl | rfl | rfl <;> rfl

/-- What opens a value, with the offset at which the value begins in its place. -/
def placed (source : List Char) (opening : Quoting × List Char) : Quoting × Nat :=
  (opening.1, utf8Length source - utf8Length opening.2)

theorem quotingAt?_eq (h : Behind source offset cs) (escapes : Bool) :
    quotingAt? source escapes offset = (quotingOf? escapes cs).map (placed source) := by
  rw [quotingAt?, h.charAt?_eq]
  cases cs with
  | nil => rfl
  | cons c cs =>
    rw [quotingOf?, List.head?_cons, Option.bind_some]
    split
    · rename_i hc
      rw [← utf8Size_of_isQuote hc, h.tail.offset_eq]
      rfl
    · rfl

theorem openingAt_eq (h : Behind source offset cs) :
    openingAt source offset = .ok ((opening? cs).map (placed source)) := by
  have hequals := skipBlank_behind h
  unfold opening?
  rw [openingAt, hequals.sliceFrom_eq]
  split
  · rename_i ds hds
    rw [hds] at hequals ⊢
    have hbehind : Behind source (skipBlank source (skipBlank source offset + 1))
        (Markup.skipBlank ds) := skipBlank_behind hequals.tail
    change (if charAt? (skipBlank source (skipBlank source offset + 1)) source = some '\x7b'
      then _ else _) = _
    rw [hbehind.charAt?_eq]
    split
    · rename_i hbrace
      obtain ⟨es, hes⟩ := List.head?_eq_some_iff.1 hbrace
      rw [hes] at hbehind ⊢
      exact congrArg Except.ok (quotingAt?_eq (skipBlank_behind hbehind.tail) true)
    · rename_i hbrace
      rw [quotingAt?_eq hbehind]
      split
      · rename_i es hes
        exact absurd (hes ▸ rfl) hbrace
      · rfl
  · rename_i hds
    change (if (Markup.skipBlank cs).head? = some '=' then _ else _) = _
    rw [if_neg fun hhead => ?_]
    · rfl
    · obtain ⟨ds, hcons⟩ := List.head?_eq_some_iff.1 hhead
      exact hds ds hcons

private theorem opening?_eq_none (h : (cs.head?.any fun c => isBlank c || c = '=') = false) :
    opening? cs = none := by
  rw [Option.eq_none_iff_forall_ne_some]
  rintro ⟨q, value⟩ hopening
  obtain ⟨bs, braced, gap, hbs, -, -, -, rfl⟩ := opening?_eq_some_iff.1 hopening
  cases bs with
  | nil => simp at h
  | cons b bs => simp [hbs b List.mem_cons_self] at h

/-- The longer name is taken where both stand. -/
theorem attributeName?_of_isPrefix (h : "class".toList.isPrefixOf cs = true) :
    ∃ behind, attributeName? cs =
      some (if "className".toList.isPrefixOf cs then "className" else "class", behind) := by
  split
  · rename_i hlong
    obtain ⟨behind, rfl⟩ := List.isPrefixOf_iff_prefix.1 hlong
    exact ⟨behind, rfl⟩
  · rename_i hlong
    obtain ⟨behind, rfl⟩ := List.isPrefixOf_iff_prefix.1 h
    refine ⟨behind, ?_⟩
    simp only [String.reduceToList, List.cons_append, List.nil_append] at hlong ⊢
    simp only [attributeName?]
    split
    · exact absurd rfl hlong
    · rfl

theorem isBoundary_eq {before behind : List Char} {length : Nat}
    (h : Behind (before ++ cs) (utf8Length before + length) behind) :
    isBoundary (before ++ cs) (utf8Length before) length =
      .ok (!before.getLast?.any isNameChar &&
        behind.head?.any fun c => isBlank c || c = '=') := by
  rw [isBoundary, Text.sliceTo_utf8Length, h.sliceFrom_eq]
  rfl

/-- What the scan by offsets says of an attribute. -/
def Found.of (a : Attribute) : Found := ⟨a.name, a.start, a.stop, a.pieces⟩

private theorem readAttribute_none {name : String} {behind : List Char}
    (h : Behind source (offset + name.utf8ByteSize) behind) (hnone : opening? behind = none) :
    readAttribute source name offset = .ok none := by
  rw [readAttribute, openingAt_eq h, hnone]
  rfl

/-- The value of an attribute is read from behind its lead. -/
theorem readAttribute_some {name : String} {behind lead value before : List Char} {q : Quoting}
    (h : Behind (before ++ (lead ++ value)) (utf8Length before + name.utf8ByteSize) behind)
    (hopening : opening? behind = some (q, value)) :
    readAttribute (before ++ (lead ++ value)) name (utf8Length before) =
      .ok ((q.atoms? value).map fun (as, rest) =>
        .of ((Sighting.mk name lead as rest).attribute (utf8Length before))) := by
  have hbefore : Behind (before ++ (lead ++ value)) (utf8Length before) (lead ++ value) :=
    ⟨before, rfl, rfl⟩
  have hvalue := hbefore.append
  have hplaced : placed (before ++ (lead ++ value)) (q, value) =
      (q, utf8Length before + utf8Length lead) := congrArg (Prod.mk q) hvalue.offset_eq.symm
  rw [readAttribute, openingAt_eq h, hopening, Option.map_some, hplaced]
  change (scanValue _ q (.within [] (utf8Length before + utf8Length lead) []) _ >>= _) = _
  rw [scanValue_eq q (.fresh hvalue)]
  cases hread : q.atoms? value with
  | none => rfl
  | some read =>
    obtain ⟨as, rest⟩ := read
    obtain ⟨-, rfl, -⟩ := Quoting.spells_of_atoms? hread
    exact congrArg (fun stop => Except.ok (some (Found.mk name _ stop _)))
      hvalue.append.offset_eq.symm

/-- What is found at a place is what is seen there behind the text in front. -/
theorem attributeAt_eq (before : List Char) (h : "class".toList.isPrefixOf cs = true) :
    attributeAt (before ++ cs) (utf8Length before) =
      .ok ((sighting? before.getLast? cs).map fun s => .of (s.attribute (utf8Length before))) := by
  obtain ⟨behind, hname⟩ := attributeName?_of_isPrefix h
  have hbefore : Behind (before ++ cs) (utf8Length before) cs := ⟨before, rfl, rfl⟩
  rw [attributeAt, hbefore.sliceFrom_eq]
  dsimp only [bind, Except.bind]
  generalize (if "className".toList.isPrefixOf cs then "className" else "class") = name at *
  obtain ⟨-, hcs⟩ := eq_of_attributeName? hname
  have hbehind : Behind (before ++ cs) (utf8Length before + name.utf8ByteSize) behind := by
    rw [← Text.utf8Length_toList]
    exact Behind.append (hcs ▸ hbefore)
  rw [isBoundary_eq hbehind]
  cases hopening : opening? behind with
  | none =>
    rw [readAttribute_none hbehind hopening]
    have hnone : sighting? before.getLast? cs = none := by simp [sighting?, hname, hopening]
    rw [hnone]
    exact ite_self _
  | some opening =>
    obtain ⟨q, value⟩ := opening
    obtain ⟨lead, hlead, rfl⟩ := exists_lead hname hopening
    have hnext : (behind.head?.any fun c => isBlank c || c = '=') = true := by
      by_contra hnext
      rw [opening?_eq_none (Bool.eq_false_iff.2 hnext)] at hopening
      cases hopening
    rw [hnext, Bool.and_true, readAttribute_some hbehind hopening]
    cases hprevious : before.getLast?.any isNameChar with
    | true =>
      rw [sighting?, if_pos hprevious]
      rfl
    | false =>
      rw [hlead.sighting? hprevious, Option.map_map]
      rfl

theorem placesFrom_append (offset : Nat) (front cs : List Char) :
    ∃ within, placesFrom offset (front ++ cs) =
        within ++ placesFrom (offset + utf8Length front) cs ∧
      ∀ place ∈ within, place < offset + utf8Length front := by
  induction front generalizing offset with
  | nil => exact ⟨[], rfl, by simp⟩
  | cons c front ih =>
    obtain ⟨within, hplaces, hwithin⟩ := ih (offset + c.utf8Size)
    rw [Nat.add_assoc] at hplaces hwithin
    rw [List.cons_append, placesFrom, hplaces]
    split
    · refine ⟨offset :: within, rfl, List.forall_mem_cons.2 ⟨?_, hwithin⟩⟩
      have hpos := c.utf8Size_pos
      rw [utf8Length]
      omega
    · exact ⟨within, rfl, hwithin⟩

/-- An attribute begins at a place, and all places up to its end are behind this one. -/
theorem placesFrom_lead {name : String} {q : Quoting} {lead : List Char} (h : IsLead name q lead)
    (offset : Nat) (text cs : List Char) :
    ∃ within, placesFrom offset (lead ++ text ++ cs) =
        offset :: (within ++ placesFrom (offset + utf8Length (lead ++ text)) cs) ∧
      ∀ place ∈ within, place < offset + utf8Length (lead ++ text) := by
  have hprefix : "class".toList.isPrefixOf (lead ++ text ++ cs) = true :=
    (List.append_assoc lead text cs).symm ▸ h.isPrefixOf (text ++ cs)
  obtain ⟨tail, rfl, -⟩ := h.exists_cons
  obtain ⟨within, hplaces, hwithin⟩ := placesFrom_append (offset + 'c'.utf8Size) (tail ++ text) cs
  rw [Nat.add_assoc] at hplaces hwithin
  refine ⟨within, ?_, hwithin⟩
  rw [List.cons_append, List.cons_append, placesFrom, hplaces]
  exact if_pos hprefix

/-- Places inside a value that was read are passed over. -/
theorem foldlM_step_within {places : List Nat} {p : Progress}
    (h : ∀ place ∈ places, place < p.resume) (more : List Nat) :
    (places ++ more).foldlM (Progress.step source) p = more.foldlM (Progress.step source) p := by
  induction places with
  | nil => rfl
  | cons place places ih =>
    obtain ⟨hplace, hplaces⟩ := List.forall_mem_cons.1 h
    rw [List.cons_append, List.foldlM_cons, Progress.step, if_pos hplace]
    exact ih hplaces

theorem step_eq {before : List Char} (h : "class".toList.isPrefixOf cs = true) {p : Progress}
    (hresume : p.resume ≤ utf8Length before) :
    p.step (before ++ cs) (utf8Length before) =
      .ok (match sighting? before.getLast? cs with
        | none => p
        | some s =>
          let a := s.attribute (utf8Length before)
          ⟨a.stop, p.found ++ [.of a]⟩) := by
  rw [Progress.step, if_neg (Nat.not_lt.2 hresume), attributeAt_eq before h]
  cases sighting? before.getLast? cs <;> rfl

/-- Going through the places of a text finds what its stretches hold. -/
theorem foldlM_step_eq {before : List Char} {segments : List Segment}
    (h : Stretches before cs segments) {p : Progress} (hresume : p.resume ≤ utf8Length before) :
    ∃ resume, (placesFrom (utf8Length before) cs).foldlM (Progress.step (before ++ cs)) p =
      .ok ⟨resume, p.found ++ (segments.filterMap Segment.attribute?).map .of⟩ := by
  induction h generalizing p with
  | nil =>
    refine ⟨p.resume, ?_⟩
    rw [placesFrom, List.foldlM_nil, List.filterMap_nil, List.map_nil, List.append_nil]
    rfl
  | @value before cs s segments hs h ih =>
    obtain ⟨q, behind, hlead, -, -, hcs⟩ := eq_of_sighting? hs
    have hprefix : "class".toList.isPrefixOf cs = true := hcs ▸ hlead.isPrefixOf _
    rw [← List.append_assoc] at hcs
    have hstop : (s.attribute (utf8Length before)).stop =
        utf8Length before + utf8Length (s.lead ++ s.atoms.flatMap Atom.text) := by
      rw [Text.utf8Length_append, ← Nat.add_assoc]
      rfl
    obtain ⟨within, hplaces, hwithin⟩ :=
      placesFrom_lead hlead (utf8Length before) (s.atoms.flatMap Atom.text) s.rest
    rw [← hcs, ← hstop] at hplaces
    rw [← hstop] at hwithin
    rw [← Text.utf8Length_append] at hstop
    -- The first place is that of the attribute, and the others up to its end are inside of it.
    obtain ⟨resume, hrun⟩ := ih (p := ⟨_, p.found ++ [.of (s.attribute (utf8Length before))]⟩)
      (Nat.le_of_eq hstop)
    refine ⟨resume, ?_⟩
    rw [hplaces, List.foldlM_cons, step_eq hprefix hresume, hs]
    refine (foldlM_step_within hwithin _).trans ?_
    rw [hstop, hcs, ← List.append_assoc before]
    refine hrun.trans ?_
    exact congrArg (fun found => Except.ok (Progress.mk resume found)) (List.append_assoc _ _ _)
  | @plain before c cs segments hnone h ih =>
    have hmove : before ++ c :: cs = before ++ [c] ++ cs := by simp
    have hnext : utf8Length before + c.utf8Size = utf8Length (before ++ [c]) := by
      rw [Text.utf8Length_append]
      rfl
    obtain ⟨resume, hrun⟩ := ih (p := p) (by omega)
    refine ⟨resume, ?_⟩
    rw [placesFrom]
    split
    · rename_i hprefix
      rw [List.foldlM_cons, step_eq hprefix hresume, hnone, hmove, hnext]
      exact hrun
    · rw [hmove, hnext]
      exact hrun

/-- The scan by offsets takes no part that the text does not have, and finds every attribute. -/
theorem attributes_eq (source : List Char) :
    attributes source = .ok ((Markup.attributes source).map .of) := by
  obtain ⟨resume, hrun⟩ :=
    foldlM_step_eq (stretches_segments source) (p := ⟨0, []⟩) (Nat.le_refl 0)
  rw [attributes, places]
  exact congrArg (fun p => p >>= fun p => pure p.found) hrun

theorem classes_eq (source : List Char) : classes source = .ok (Markup.classes source) := by
  rw [classes, attributes_eq]
  refine congrArg Except.ok ?_
  rw [List.flatMap_map]
  rfl

end DesignTokens.Markup.Offsets
