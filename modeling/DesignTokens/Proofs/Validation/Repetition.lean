import DesignTokens.Proofs.Markup.Modes
import DesignTokens.Validation

/-! # Checking a checked text again

What is left of a source text is accepted, and nothing more is taken from it, unless a template that
is never closed holds a refused class with a brace: without that brace the template may be closed. -/
namespace DesignTokens

namespace Markup

/-- The text begins with an attribute whose value is a template that is never closed. -/
def leavesTemplateOpen (cs : List Char) : Bool :=
  match attributeName? cs with
  | none => false
  | some (_, behind) =>
    match opening? behind with
    | none => false
    | some (q, value) => q.quote = '`' && (q.atoms? value).isNone

theorem IsLead.leavesTemplateOpen {name : String} {q : Quoting} {lead value : List Char}
    (h : IsLead name q lead) (hq : q.quote = '`') (hvalue : q.atoms? value = none) :
    leavesTemplateOpen (lead ++ value) = true := by
  obtain ⟨behind, hname, hopening⟩ := h.opens value
  rw [Markup.leavesTemplateOpen, hname]
  dsimp only
  rw [hopening]
  simp [hq, hvalue]

end Markup

namespace Validator
open Markup (Atom Piece Segment Sighting Quoting IsLead Mode segments segmentsFrom runs ofRuns)
variable {v : Validator}

def keepsRun (v : Validator) (run : List Atom) : Bool := v.keeps (Piece.ofAtoms run)

/-- A value without its refused classes. -/
def remaining (v : Validator) (as : List Atom) : List Atom :=
  if (runs as).all v.keepsRun then as else ofRuns ((runs as).filter v.keepsRun)

@[simp] theorem keeps_unplaced (p : Piece) : v.keeps p.unplaced = v.keeps p := by
  cases p <;> rfl

@[simp] theorem keeps_name (word : Markup.Word) : v.keeps (.name word) = v.accepts word.text := rfl

theorem keeps_comp_unplaced : v.keeps ∘ Piece.unplaced = v.keeps :=
  funext keeps_unplaced

theorem unplaced_pieces (found : Markup.Attribute) :
    found.pieces.map Piece.unplaced = (runs found.atoms).map Piece.ofAtoms :=
  Markup.unplaced_piecesFrom found.start [] found.atoms

theorem all_pieces (found : Markup.Attribute) :
    found.pieces.all v.keeps = (runs found.atoms).all v.keepsRun :=
  calc found.pieces.all v.keeps
    _ = (found.pieces.map Piece.unplaced).all v.keeps := by
      rw [List.all_map, keeps_comp_unplaced]
    _ = (runs found.atoms).all v.keepsRun := by
      rw [unplaced_pieces, List.all_map]
      rfl

private theorem unplaced_filter (found : Markup.Attribute) :
    (found.pieces.filter v.keeps).map Piece.unplaced =
      ((runs found.atoms).filter v.keepsRun).map Piece.ofAtoms :=
  calc (found.pieces.filter v.keeps).map Piece.unplaced
    _ = (found.pieces.map Piece.unplaced).filter v.keeps := by
      rw [List.filter_map, keeps_comp_unplaced]
    _ = ((runs found.atoms).filter v.keepsRun).map Piece.ofAtoms := by
      rw [unplaced_pieces, List.filter_map]
      rfl

private theorem texts_filter (found : Markup.Attribute) :
    (found.pieces.filter v.keeps).map (fun piece => piece.word.text) =
      ((runs found.atoms).filter v.keepsRun).map (·.flatMap Atom.text) := by
  have h := congrArg (List.map fun piece => piece.word.text) (@unplaced_filter v found)
  simpa [Function.comp_def] using h

theorem cleaned_value (found : Markup.Attribute) :
    v.cleaned (.value found) = (v.remaining found.atoms).flatMap Atom.text := by
  rw [cleaned, remaining, all_pieces]
  split
  · rfl
  · rw [texts_filter, Markup.text_ofRuns, joined]

private theorem runs_remaining (as : List Atom) :
    runs (v.remaining as) = (runs as).filter v.keepsRun := by
  unfold remaining
  split
  · rename_i h
    exact (List.filter_eq_self.2 (List.all_eq_true.1 h)).symm
  · exact Markup.runs_ofRuns fun r hr => Markup.isRun_of_mem_runs (List.mem_filter.1 hr).1

private theorem spells_remaining {q : Quoting} {as : List Atom} (h : q.Spells as) :
    q.Spells (v.remaining as) := by
  unfold remaining
  split
  · exact h
  · exact .ofRuns fun r hr => h.of_mem_runs (List.mem_filter.1 hr).1

/-- The refused classes of some stretches. -/
def refused (v : Validator) (ss : List Segment) : List Markup.Word :=
  ((ss.filterMap Segment.attribute?).flatMap Markup.Attribute.words).filter
    fun word => !v.accepts word.text

theorem refused_append (ss ss' : List Segment) :
    v.refused (ss ++ ss') = v.refused ss ++ v.refused ss' := by
  simp [refused]

private theorem refused_of_suffix {ss after : List Segment} (h : after <:+ ss) :
    v.refused after ⊆ v.refused ss := by
  obtain ⟨before, rfl⟩ := h
  rw [refused_append]
  exact List.subset_append_right _ _

theorem refused_cons (s : Segment) (ss : List Segment) :
    v.refused (s :: ss) = v.refused [s] ++ v.refused ss := refused_append [s] ss

@[simp] theorem refused_plain (text : List Char) (ss : List Segment) :
    v.refused (.plain text :: ss) = v.refused ss := rfl

theorem all_keeps (pieces : List Piece) :
    pieces.all v.keeps = (pieces.filterMap Piece.name?).all fun word => v.accepts word.text := by
  induction pieces with
  | nil => rfl
  | cons piece pieces ih =>
    cases piece with
    | name word =>
      rw [List.all_cons, ih, keeps_name]
      rfl
    | dynamic word => exact ih

private theorem refused_value_eq_nil_iff {found : Markup.Attribute} :
    v.refused [.value found] = [] ↔ found.pieces.all v.keeps = true := by
  have hwords : v.refused [.value found] = found.words.filter fun word => !v.accepts word.text := by
    simp [refused, Segment.attribute?]
  rw [hwords, List.filter_eq_nil_iff, all_keeps, List.all_eq_true, Markup.Attribute.words]
  simp only [Bool.not_eq_true', Bool.not_eq_false]

/-- A run that is taken from a value is one of its refused classes. -/
theorem exists_refused {found : Markup.Attribute} {r : List Atom} (hr : r ∈ runs found.atoms)
    (h : v.keepsRun r = false) :
    ∃ word ∈ v.refused [.value found], word.text = r.flatMap Atom.text := by
  have hmem : Piece.ofAtoms r ∈ found.pieces.map Piece.unplaced := by
    rw [unplaced_pieces]
    exact List.mem_map_of_mem hr
  obtain ⟨piece, hpiece, hsame⟩ := List.mem_map.1 hmem
  have hkeeps : v.keeps piece = false := by
    rw [← keeps_unplaced, hsame]
    exact h
  cases piece with
  | dynamic word => cases hkeeps
  | name word =>
    refine ⟨word, ?_, ?_⟩
    · have hword : word ∈ found.words := List.mem_filterMap.2 ⟨_, hpiece, rfl⟩
      have hrefused : v.accepts word.text = false := hkeeps
      exact List.mem_filter.2 ⟨by simpa [Segment.attribute?] using hword, by simpa⟩
    · rw [← Piece.word_ofAtoms, ← hsame]
      rfl

/-- The rest of an attribute that is found goes on with its closing quote. -/
theorem exists_quote {q : Quoting} (hq : Markup.isQuote q.quote = true) (offset : Nat)
    (behind : List Char) :
    ∃ cs, (segmentsFrom none offset (q.quote :: behind)).flatMap v.cleaned = q.quote :: cs := by
  have hc : q.quote ≠ 'c' := by
    intro hc
    rw [hc] at hq
    exact absurd hq (by decide)
  rw [Markup.segmentsFrom_of_ne hc]
  exact ⟨_, rfl⟩

/-- The quote behind a value leads to the same mode behind what is left of the value. -/
theorem step_remaining {q inner : Quoting} {m : Mode} {found : Markup.Attribute}
    (hq : Markup.isQuote q.quote = true) (hinner : Markup.isQuote inner.quote = true)
    (hescapes : inner.quote = q.quote → inner.escapes = true) (h : inner.Spells found.atoms)
    (hm : q.Admits m) (hsettled : m.settle = m)
    (hbraceless : ∀ word ∈ v.refused [.value found], q.IsBraceless word.text)
    (hopen : q.run m (found.atoms.flatMap Atom.text) ≠ .closed) :
    q.step (q.run m ((v.remaining found.atoms).flatMap Atom.text)) inner.quote =
      q.step (q.run m (found.atoms.flatMap Atom.text)) inner.quote := by
  unfold remaining
  split
  · rfl
  · refine Quoting.step_run_filter hq hinner hescapes h hm hsettled ?_ hopen
    intro r hr hrefused
    obtain ⟨word, hword, htext⟩ := exists_refused hr hrefused
    rw [← htext]
    exact hbraceless word hword

/-- A value around some stretches that is not closed there is left as it is by what is taken from
them. -/
theorem run_cleaned {q : Quoting} (hq : Markup.isQuote q.quote = true) {m : Mode}
    (hm : q.Admits m) {previous : Option Char} {offset : Nat} {cs : List Char}
    (hbraceless : ∀ word ∈ v.refused (segmentsFrom previous offset cs), q.IsBraceless word.text)
    (hopen : q.run m cs ≠ .closed) :
    q.run m ((segmentsFrom previous offset cs).flatMap v.cleaned) = q.run m cs := by
  fun_induction segmentsFrom previous offset cs generalizing m with
  | case1 => rfl
  | case2 previous offset c cs s hs found =>
    rename_i ih
    obtain ⟨inner, behind, hlead, hspells, hrest, hcs⟩ := Markup.eq_of_sighting? hs
    obtain ⟨ds, hds⟩ := @exists_quote v inner hlead.isQuote _ behind
    rw [← hrest] at hds
    rw [hcs, Quoting.run_append, Quoting.run_append] at hopen ⊢
    rw [refused_plain, refused_cons _ (segmentsFrom _ _ _), List.forall_mem_append] at hbraceless
    obtain ⟨hvalue, hafter⟩ := hbraceless
    have hwithin := Quoting.ne_closed_of_run hopen
    obtain ⟨hsettled, hescapes⟩ :=
      Quoting.run_lead hm hlead (Quoting.ne_closed_of_run hwithin)
    have hquote := @step_remaining v q inner _ found hq hlead.isQuote hescapes hspells (hm.run _)
      hsettled hvalue hwithin
    have htail := ih ((hm.run s.lead).run _) hafter hopen
    calc q.run m _
      _ = q.run (q.run (q.run m s.lead) ((v.remaining s.atoms).flatMap Atom.text))
            (inner.quote :: ds) := by
        rw [List.flatMap_cons, List.flatMap_cons, cleaned_value, hds, Quoting.run_append,
          Quoting.run_append]
        rfl
      _ = q.run (q.run (q.run m s.lead) (s.atoms.flatMap Atom.text)) (inner.quote :: ds) := by
        rw [Quoting.run_cons, hquote, ← Quoting.run_cons]
      _ = q.run (q.run (q.run m s.lead) (s.atoms.flatMap Atom.text)) s.rest := by
        rw [← hds, htail]
  | case3 previous offset c cs hnone ih =>
    exact ih (hm.step c) hbraceless hopen

/-- What is left of a text begins as the text does, up to the first name. -/
theorem exists_of_cleaned {front ds : List Char} (hfront : 'c' ∉ front) {previous : Option Char}
    {offset : Nat} {cs : List Char}
    (h : (segmentsFrom previous offset cs).flatMap v.cleaned = front ++ ds) :
    ∃ previous' offset' rest, cs = front ++ rest ∧
      (segmentsFrom previous' offset' rest).flatMap v.cleaned = ds ∧
      segmentsFrom previous' offset' rest <:+ segmentsFrom previous offset cs := by
  induction front generalizing previous offset cs with
  | nil => exact ⟨previous, offset, cs, rfl, h, List.suffix_rfl⟩
  | cons d front ih =>
    have hd := List.ne_of_not_mem_cons hfront
    cases cs with
    | nil =>
      rw [Markup.segmentsFrom_nil] at h
      cases h
    | cons c cs =>
      cases hs : Markup.sighting? previous (c :: cs) with
      | none =>
        rw [Markup.segmentsFrom_plain hs] at h ⊢
        obtain ⟨rfl, htail⟩ := List.cons_eq_cons.1 h
        obtain ⟨previous', offset', rest, rfl, hrest, hsuffix⟩ :=
          ih (List.not_mem_of_not_mem_cons hfront) htail
        exact ⟨previous', offset', rest, rfl, hrest, hsuffix.trans (List.suffix_cons _ _)⟩
      | some s =>
        obtain ⟨q, behind, hlead, -, -, -⟩ := Markup.eq_of_sighting? hs
        obtain ⟨tail, htail, -⟩ := hlead.exists_cons
        rw [Markup.segmentsFrom_value hs, List.flatMap_cons, cleaned, htail] at h
        exact absurd (List.cons_eq_cons.1 h).1 hd

/-- If the stretches begin with a template that is never closed, then no class that is refused in
them has a brace. -/
def KeepsTemplatesOpen (v : Validator) (ss : List Segment) : Prop :=
  Markup.leavesTemplateOpen (ss.flatMap Segment.text) = true →
    ∀ word ∈ v.refused ss, ∀ c ∈ word.text, c ≠ '\x7b' ∧ c ≠ '\x7d'

/-- Where a text shows no attribute, what is left of it shows none. -/
theorem sighting?_cleaned {previous : Option Char} {c : Char} {offset : Nat} {cs : List Char}
    (hnone : Markup.sighting? previous (c :: cs) = none)
    (hkeeps : v.KeepsTemplatesOpen (segmentsFrom previous offset (c :: cs))) :
    Markup.sighting? previous
      (c :: (segmentsFrom (some c) (offset + c.utf8Size) cs).flatMap v.cleaned) = none := by
  rw [Option.eq_none_iff_forall_ne_some]
  intro s hs
  obtain ⟨hprevious, q, value, hlead, hcs, hvalue⟩ := Markup.exists_lead_of_sighting? hs
  obtain ⟨front, hfront, hname⟩ := hlead.exists_cons
  rw [hfront, List.cons_append] at hcs
  obtain ⟨rfl, hcs⟩ := List.cons_eq_cons.1 hcs
  obtain ⟨previous', offset', rest, rfl, hrest, hsuffix⟩ := exists_of_cleaned hname hcs
  have hopens : 'c' :: (front ++ rest) = s.lead ++ rest := by rw [hfront, List.cons_append]
  have hopen : q.atoms? rest = none := by
    have hsighting := hlead.sighting? hprevious rest
    rwa [← hopens, hnone, eq_comm, Option.map_eq_none_iff] at hsighting
  have hbraceless : ∀ word ∈ v.refused (segmentsFrom previous' offset' rest),
      q.IsBraceless word.text := by
    intro word hword hq
    refine hkeeps ?_ word ?_
    · rw [Markup.text_segmentsFrom, hopens]
      exact hlead.leavesTemplateOpen hq hopen
    · rw [Markup.segmentsFrom_plain hnone]
      obtain ⟨before, hbefore⟩ := hsuffix
      rw [← hbefore, refused_plain, refused_append]
      exact List.mem_append_right _ hword
  have hrun := Quoting.atoms?_eq_none_iff.1 hopen
  have hsame := run_cleaned hlead.isQuote (m := .text) trivial hbraceless hrun
  rw [hrest] at hsame
  have hstill : q.atoms? value = none := Quoting.atoms?_eq_none_iff.2 (hsame ▸ hrun)
  rw [hstill] at hvalue
  cases hvalue

/-- An attribute that is found is found again, without its refused classes. -/
theorem sighting?_remaining {previous : Option Char} {cs : List Char} {s : Sighting}
    (hs : Markup.sighting? previous cs = some s) (offset : Nat) :
    Markup.sighting? previous (s.lead ++ ((v.remaining s.atoms).flatMap Atom.text ++
        (segmentsFrom none offset s.rest).flatMap v.cleaned)) =
      some ⟨s.name, s.lead, v.remaining s.atoms,
        (segmentsFrom none offset s.rest).flatMap v.cleaned⟩ := by
  obtain ⟨hprevious, q, value, hlead, -, hatoms⟩ := Markup.exists_lead_of_sighting? hs
  obtain ⟨hspells, -, hrest⟩ := Quoting.spells_of_atoms? hatoms
  obtain ⟨behind, hbehind⟩ := List.head?_eq_some_iff.1 hrest
  obtain ⟨ds, hds⟩ := @exists_quote v q hlead.isQuote offset behind
  rw [hbehind, hds, hlead.sighting? hprevious,
    Quoting.atoms?_append hlead.isQuote (spells_remaining hspells)]
  rfl

/-- What is left of a text has no refused class. -/
theorem refused_cleaned {previous : Option Char} {offset : Nat} {cs : List Char}
    (h : ∀ after, after <:+ segmentsFrom previous offset cs → v.KeepsTemplatesOpen after)
    (offset' : Nat) :
    v.refused (segmentsFrom previous offset' ((segmentsFrom previous offset cs).flatMap v.cleaned))
      = [] := by
  fun_induction segmentsFrom previous offset cs generalizing offset' with
  | case1 =>
    rw [List.flatMap_nil, Markup.segmentsFrom_nil]
    rfl
  | case2 previous offset c cs s hs found =>
    rename_i ih
    have hrest := ih fun after hafter =>
      h after (hafter.trans ((List.suffix_cons _ _).trans (List.suffix_cons _ _)))
    rw [List.flatMap_cons, List.flatMap_cons, cleaned_value, cleaned,
      Markup.segmentsFrom_value (sighting?_remaining hs found.stop), refused_plain, refused_cons,
      hrest, List.append_nil]
    refine refused_value_eq_nil_iff.2 ?_
    rw [all_pieces, runs_remaining, List.all_filter]
    simp
  | case3 previous offset c cs hnone =>
    rename_i ih
    have hkeeps : v.KeepsTemplatesOpen (segmentsFrom previous offset (c :: cs)) := by
      rw [Markup.segmentsFrom_plain hnone]
      exact h _ List.suffix_rfl
    have hagain := sighting?_cleaned hnone hkeeps
    rw [List.flatMap_cons, cleaned, List.singleton_append, Markup.segmentsFrom_plain hagain,
      refused_plain]
    exact ih (fun after hafter => h after (hafter.trans (List.suffix_cons _ _))) _

private theorem cleaned_of_refused {s : Segment} (h : v.refused [s] = []) :
    v.cleaned s = s.text := by
  cases s with
  | plain text => rfl
  | value found =>
    rw [cleaned, if_pos (refused_value_eq_nil_iff.1 h)]
    rfl

private theorem flatMap_cleaned_of_refused {ss : List Segment} (h : v.refused ss = []) :
    ss.flatMap v.cleaned = ss.flatMap Segment.text := by
  induction ss with
  | nil => rfl
  | cons s ss ih =>
    rw [refused_cons, List.append_eq_nil_iff] at h
    rw [List.flatMap_cons, List.flatMap_cons, cleaned_of_refused h.1, ih h.2]

private theorem reject?_of_accepts {word : Markup.Word} (h : v.accepts word.text = true)
    (text : List Char) : v.reject? text word = none := by
  rw [reject?, Option.isNone_iff_eq_none.1 h]
  rfl

/-- A text without refused classes is left as it is. -/
theorem checkSource_of_refused {source : String} (h : v.refused (segments source.toList) = []) :
    v.checkSource source = ⟨source, []⟩ := by
  have hcode : (segments source.toList).flatMap v.cleaned = source.toList := by
    rw [flatMap_cleaned_of_refused h, segments, Markup.text_segmentsFrom]
  have hclasses : (Markup.classes source.toList).filterMap (v.reject? source.toList) = [] := by
    rw [List.filterMap_eq_nil_iff]
    intro word hword
    have := List.filter_eq_nil_iff.1 h word hword
    exact reject?_of_accepts (by simpa using this) source.toList
  rw [checkSource, hcode, hclasses, String.ofList_toList]

/-- What is left of a text is accepted as it is when it is checked again. -/
theorem checkSource_checkSource {source : String}
    (h : ∀ after, after <:+ segments source.toList → v.KeepsTemplatesOpen after) :
    v.checkSource (v.checkSource source).code = ⟨(v.checkSource source).code, []⟩ := by
  refine checkSource_of_refused ?_
  have hcode : (v.checkSource source).code.toList = (segments source.toList).flatMap v.cleaned :=
    String.toList_ofList
  rw [hcode]
  exact refused_cleaned h 0

/-- A validator without tokens that knows no utilities. -/
def bare : Validator := ⟨⟨.empty, .empty⟩, ⟨[]⟩, 3, true⟩

/-- A refused class with a brace, and behind it a template that is never closed. -/
def unclosed : String := "class=\"w-[\x7b]\" class=`$\x7bclass='w-[1] b'"

theorem checkSource_checkSource_unclosed :
    (∀ after, after <:+ segments unclosed.toList → bare.KeepsTemplatesOpen after) ∧
      (bare.checkSource unclosed).code = "class=\"\" class=`$\x7bclass='b'" ∧
      bare.checkSource (bare.checkSource unclosed).code =
        ⟨(bare.checkSource unclosed).code, []⟩ := by
  have hfirst : Markup.sighting? none unclosed.toList =
      some ⟨"class", "class=\"".toList, "w-[\x7b]".toList.map .char,
        "\" class=`$\x7bclass='w-[1] b'".toList⟩ := by decide +kernel
  have hopen : Markup.sighting? (some ' ') "class=`$\x7bclass='w-[1] b'".toList = none := by
    decide +kernel
  have hlast : Markup.sighting? (some '\x7b') "class='w-[1] b'".toList =
      some ⟨"class", "class='".toList, "w-[1]".toList.map .char ++ [.blank ' ', .char 'b'],
        ['\'']⟩ := by decide +kernel
  obtain ⟨rest, hrest, hrefused, hcleaned⟩ : ∃ rest,
      segments unclosed.toList = .plain "class=\"".toList ::
        .value ⟨"class", 7, "w-[\x7b]".toList.map .char⟩ :: rest ∧
      bare.refused rest = [⟨"w-[1]".toList, 30⟩] ∧
      rest.flatMap bare.cleaned = "\" class=`$\x7bclass='b'".toList := by
    refine ⟨_, Markup.segmentsFrom_value hfirst 0, ?_⟩
    simp only [String.reduceToList] at hopen hlast ⊢
    simp (disch := decide) only [Markup.segmentsFrom_of_ne, Markup.segmentsFrom_nil,
      Markup.segmentsFrom_plain hopen, Markup.segmentsFrom_value hlast]
    constructor <;> decide +kernel
  have hkeeps : ∀ after, after <:+ segments unclosed.toList → bare.KeepsTemplatesOpen after := by
    intro after hafter
    rw [hrest, List.suffix_cons_iff, List.suffix_cons_iff] at hafter
    rcases hafter with rfl | rfl | hafter
    · intro hopen
      have hclosed : Markup.leavesTemplateOpen unclosed.toList = false := by decide +kernel
      rw [← hrest, segments, Markup.text_segmentsFrom, hclosed] at hopen
      cases hopen
    · intro hopen
      cases hopen
    · intro _ word hword
      have hword := refused_of_suffix hafter hword
      rw [hrefused] at hword
      rw [List.mem_singleton.1 hword]
      simp
  refine ⟨hkeeps, ?_, checkSource_checkSource hkeeps⟩
  change String.ofList ((segments unclosed.toList).flatMap bare.cleaned) = _
  rw [hrest, List.flatMap_cons, List.flatMap_cons, hcleaned]
  decide +kernel

/-- A template that is never closed, since the brace of a class hides the one that closes it. -/
def braceInside : String := "class=`$\x7b class=\"w-[\x7b]\" \x7d w-[1]`"

/-- The same without the class, which closes the template. -/
def braceTaken : String := "class=`$\x7b class=\"\" \x7d w-[1]`"

theorem segments_braceTaken : segments braceTaken.toList = [.plain "class=`".toList,
    .value ⟨"class", 7, [.interpolation " class=\"\" \x7d".toList, .blank ' '] ++
      "w-[1]".toList.map .char⟩, .plain ['`']] := by
  have hfirst : Markup.sighting? none braceTaken.toList = some ⟨"class", "class=`".toList,
      [.interpolation " class=\"\" \x7d".toList, .blank ' '] ++ "w-[1]".toList.map .char,
      ['`']⟩ := by
    decide +kernel
  rw [segments, Markup.segmentsFrom_value hfirst, Markup.segmentsFrom_of_ne (by decide),
    Markup.segmentsFrom_nil]
  rfl

/-- A class is refused that was not looked at in the first check. -/
theorem checkSource_braceInside :
    (bare.checkSource braceInside).code = braceTaken ∧
      (bare.checkSource braceTaken).code = "class=`$\x7b class=\"\" \x7d`" ∧
      (bare.checkSource braceTaken).isValid = false := by
  have hopen : Markup.sighting? none braceInside.toList = none := by decide +kernel
  have hinner : Markup.sighting? (some ' ') "class=\"w-[\x7b]\" \x7d w-[1]`".toList =
      some ⟨"class", "class=\"".toList, "w-[\x7b]".toList.map .char, "\" \x7d w-[1]`".toList⟩ := by
    decide +kernel
  refine ⟨?_, ?_, ?_⟩
  · rw [checkSource, segments]
    simp only [braceInside, String.reduceToList] at hopen hinner ⊢
    simp (disch := decide) only [Markup.segmentsFrom_of_ne, Markup.segmentsFrom_nil,
      Markup.segmentsFrom_plain hopen, Markup.segmentsFrom_value hinner]
    decide +kernel
  · rw [checkSource, segments_braceTaken]
    decide +kernel
  · rw [checkSource, Markup.classes, Markup.attributes, segments_braceTaken]
    decide +kernel

end Validator
end DesignTokens
