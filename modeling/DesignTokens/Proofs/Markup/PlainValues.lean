import DesignTokens.Proofs.Markup.Placement

/-! # Values that are read like plain text

Where nothing is escaped and nothing is interpolated, the pieces of a value are its words. -/
namespace DesignTokens.Markup
open Text (utf8Length isBlank)

/-- The value of an attribute stands in a text behind a lead with these quotes. -/
def Attribute.IsQuotedIn (a : Attribute) (source : List Char) (q : Quoting) : Prop :=
  ∃ front lead rest, source = front ++ (lead ++ (a.value ++ q.quote :: rest)) ∧
    IsLead a.name q lead ∧ a.start = utf8Length (front ++ lead)

/-- The quotes are plain ones, without braces and of no template, or a backslash that hides
something and an interpolation in a template are both absent. -/
def Quoting.IsPlain (q : Quoting) (value : List Char) : Prop :=
  q.escapes = false ∨ ('\\' ∉ value ∧ (q.quote = '`' → ¬['$', '\x7b'] <:+: value))

private theorem tail_eq_of_append {α : Type} {c : α} {front front' tail tail' : List α}
    (h : c ∉ tail)
    (h' : c ∉ tail') (heq : front ++ c :: tail = front' ++ c :: tail') : tail = tail' := by
  rcases List.append_eq_append_iff.1 heq with ⟨more, -, hmore⟩ | ⟨more, -, hmore⟩
  · cases more with
    | nil => exact (List.cons_eq_cons.1 hmore).2
    | cons d more =>
      rw [(List.cons_eq_cons.1 hmore).2] at h
      exact absurd (List.mem_append_right more List.mem_cons_self) h
  · cases more with
    | nil => exact (List.cons_eq_cons.1 hmore).2.symm
    | cons d more =>
      rw [(List.cons_eq_cons.1 hmore).2] at h'
      exact absurd (List.mem_append_right more List.mem_cons_self) h'

/-- A text ends with no more than one lead. -/
theorem IsLead.quoting_eq {name name' : String} {q q' : Quoting}
    {front front' lead lead' : List Char} (h : IsLead name q lead) (h' : IsLead name' q' lead')
    (heq : front ++ lead = front' ++ lead') : q = q' := by
  have hlead : lead = lead' := by
    obtain ⟨tail, rfl, htail⟩ := h.exists_cons
    obtain ⟨tail', rfl, htail'⟩ := h'.exists_cons
    rw [tail_eq_of_append htail htail' heq]
  subst hlead
  obtain ⟨behind, hname, hopening⟩ := h.opens []
  obtain ⟨behind', hname', hopening'⟩ := h'.opens []
  obtain ⟨-, rfl⟩ := Prod.mk.inj (Option.some.inj (hname.symm.trans hname'))
  exact (Prod.mk.inj (Option.some.inj (hopening.symm.trans hopening'))).1

namespace Attribute
variable {a : Attribute} {source : List Char} {q q' : Quoting}

theorem IsQuotedIn.unique (h : a.IsQuotedIn source q) (h' : a.IsQuotedIn source q') : q = q' := by
  obtain ⟨front, lead, rest, hsource, hlead, hstart⟩ := h
  obtain ⟨front', lead', rest', hsource', hlead', hstart'⟩ := h'
  rw [← List.append_assoc] at hsource hsource'
  have hcut := Text.splitAt?_utf8Length (front ++ lead) (a.value ++ q.quote :: rest)
  have hcut' := Text.splitAt?_utf8Length (front' ++ lead') (a.value ++ q'.quote :: rest')
  rw [← hsource, ← hstart] at hcut
  rw [← hsource', ← hstart'] at hcut'
  exact hlead.quoting_eq hlead' (Prod.mk.inj (Option.some.inj (hcut.symm.trans hcut'))).1

/-- The quotes around a value that is found, and what they spell. -/
theorem exists_isQuotedIn (h : a ∈ attributes source) :
    ∃ q, a.IsQuotedIn source q ∧ q.Spells a.atoms := by
  obtain ⟨before, cs, s, rfl, hs, rfl⟩ := seenIn_of_mem h
  obtain ⟨q, behind, hlead, hspells, hrest, hcs⟩ := eq_of_sighting? hs
  refine ⟨q, ⟨before, s.lead, behind, ?_, hlead, ?_⟩, hspells⟩
  · rw [hcs, hrest]
    rfl
  · exact (Text.utf8Length_append _ _).symm

private theorem IsQuotedIn.spells (h : a ∈ attributes source) (hq : a.IsQuotedIn source q) :
    q.Spells a.atoms := by
  obtain ⟨q', hq', hspells⟩ := exists_isQuotedIn h
  rwa [hq.unique hq']

end Attribute

/-- An atom that is one character as it is. -/
def Atom.IsPlain : Atom → Prop
  | .blank c => Text.isBlank c = true
  | .char c => Text.isBlank c = false
  | .escaped _ | .interpolation _ => False

private theorem Atom.isPlain_of_spells {q : Quoting} {as : List Atom} (h : q.Spells as)
    (hplain : q.IsPlain (as.flatMap Atom.text)) (htemplate : q.quote = '`' → q.escapes = true) :
    ∀ a ∈ as, a.IsPlain := by
  intro a ha
  have hfits := h.fits a ha
  cases a with
  | blank c => exact hfits
  | char c => exact hfits.2.1
  | escaped c =>
    rcases hplain with hplain | ⟨hbackslash, -⟩
    · exact absurd (hfits.symm.trans hplain) (by decide)
    · exact absurd (List.mem_flatMap.2 ⟨_, ha, List.mem_cons_self⟩) hbackslash
  | interpolation code =>
    obtain ⟨hquote, -⟩ := hfits
    rcases hplain with hplain | ⟨-, hopening⟩
    · exact absurd ((htemplate hquote).symm.trans hplain) (by decide)
    · obtain ⟨front, rest, rfl⟩ := List.append_of_mem ha
      refine absurd ⟨front.flatMap text, code ++ rest.flatMap text, ?_⟩ (hopening hquote)
      simp [text]

theorem Piece.ofRun_eq_endWord {start : Nat} {run : List Atom} (h : ∀ a ∈ run, a.IsPlain) :
    ofRun start run = (endWord start (run.flatMap Atom.text).reverse).map name := by
  have hnone : run.any Atom.isInterpolation = false := by
    rw [List.any_eq_false]
    intro a ha hinterpolation
    cases a with
    | interpolation code => exact h _ ha
    | _ => cases hinterpolation
  rw [← word_ofRun, ofRun, hnone]
  split <;> rfl

/-- Plain atoms are cut at the same places as the text that they spell. -/
theorem piecesFrom_eq_wordsFrom {as : List Atom} (h : ∀ a ∈ as, a.IsPlain) (start : Nat)
    {run : List Atom} (hrun : ∀ a ∈ run, a.IsPlain) :
    piecesFrom start run as =
      (wordsFrom start (run.reverse.flatMap Atom.text).reverse (as.flatMap Atom.text)).map
        Piece.name := by
  have hreverse : ∀ a ∈ run.reverse, a.IsPlain := fun a ha => hrun a (List.mem_reverse.1 ha)
  induction as generalizing start run with
  | nil =>
    rw [piecesFrom, List.flatMap_nil, wordsFrom_nil]
    exact Piece.ofRun_eq_endWord hreverse
  | cons a as ih =>
    obtain ⟨ha, has⟩ := List.forall_mem_cons.1 h
    rw [piecesFrom, List.flatMap_cons]
    cases a with
    | blank c =>
      have hrest := ih has (start + utf8Length (run.reverse.flatMap Atom.text) + c.utf8Size)
        (List.forall_mem_nil _) (List.forall_mem_nil _)
      have hblank : (Atom.blank c).isBlank = true := rfl
      rw [if_pos hblank, Piece.ofRun_eq_endWord hreverse,
        Atom.text, List.singleton_append, wordsFrom_blank ha, List.map_append,
        Text.utf8Length_reverse]
      exact congrArg _ hrest
    | char c =>
      have hmore : ∀ b ∈ Atom.char c :: run, b.IsPlain := List.forall_mem_cons.2 ⟨ha, hrun⟩
      have hword : ∀ d ∈ [c], isBlank d = false := List.forall_mem_singleton.2 ha
      have hblank : ¬(Atom.char c).isBlank = true := Bool.false_ne_true
      rw [if_neg hblank, ih has start hmore fun b hb => hmore b (List.mem_reverse.1 hb), Atom.text,
        wordsFrom_append hword]
      simp [Atom.text]
    | escaped c => exact ha.elim
    | interpolation code => exact ha.elim

/-- A plain value is cut into its words. -/
theorem Attribute.pieces_eq_words {a : Attribute} {source : List Char} {q : Quoting}
    (h : a ∈ attributes source) (hq : a.IsQuotedIn source q) (hplain : q.IsPlain a.value) :
    a.pieces = (Markup.words a.value a.start).map Piece.name := by
  have hspells := IsQuotedIn.spells h hq
  obtain ⟨front, lead, rest, -, hlead, -⟩ := hq
  have hatoms := Atom.isPlain_of_spells hspells hplain hlead.escapes_of_template
  exact piecesFrom_eq_wordsFrom hatoms a.start (by simp)

/-- A character of a plain value. -/
def Atom.ofChar (c : Char) : Atom := if Text.isBlank c then blank c else char c

theorem Atom.text_ofChar (c : Char) : (ofChar c).text = [c] := by
  unfold ofChar
  split <;> rfl

theorem flatMap_text_ofChar (cs : List Char) : (cs.map Atom.ofChar).flatMap Atom.text = cs := by
  induction cs with
  | nil => rfl
  | cons c cs ih => rw [List.map_cons, List.flatMap_cons, ih, Atom.text_ofChar, List.singleton_append]

theorem Atom.eq_of_ofChar {c d : Char} (h : ofChar c = char d) : c = d := by
  have htext := text_ofChar c
  rw [h] at htext
  exact (List.singleton_inj.1 htext).symm

theorem Quoting.IsPlain.tail {q : Quoting} {c : Char} {cs : List Char} (h : q.IsPlain (c :: cs)) :
    q.IsPlain cs := by
  rcases h with h | ⟨hbackslash, hopening⟩
  · exact .inl h
  · refine .inr ⟨fun hmem => hbackslash (List.mem_cons_of_mem c hmem), fun hquote hinside => ?_⟩
    exact hopening hquote (hinside.trans (List.suffix_cons c cs).isInfix)

/-- A plain value spells itself. -/
theorem Quoting.spells_ofChar {q : Quoting} (htemplate : q.quote = '`' → q.escapes = true)
    {cs : List Char} (hplain : q.IsPlain cs) (h : q.quote ∉ cs) : q.Spells (cs.map Atom.ofChar) := by
  induction cs with
  | nil => exact .nil
  | cons c cs ih =>
    rw [List.mem_cons, not_or] at h
    have hfits : (Atom.ofChar c).Fits q := by
      unfold Atom.ofChar
      split
      · assumption
      · rename_i hblank
        refine ⟨Ne.symm h.1, by simpa using hblank, ?_⟩
        rcases hplain with hplain | ⟨hbackslash, -⟩
        · simp [hplain]
        · simp [Ne.symm (List.ne_of_not_mem_cons hbackslash)]
    have hapart : ∀ b ∈ (cs.map Atom.ofChar).head?, (Atom.ofChar c).Apart q b := by
      intro b hb hquote hdollar hbrace
      obtain ⟨d, hd, rfl⟩ := Option.map_eq_some_iff.1 ((List.head?_map ..).symm.trans hb)
      obtain ⟨rest, rfl⟩ := List.head?_eq_some_iff.1 hd
      rcases hplain with hplain | ⟨-, hopening⟩
      · exact absurd ((htemplate hquote).symm.trans hplain) (by decide)
      · obtain rfl := Atom.eq_of_ofChar hdollar
        obtain rfl := Atom.eq_of_ofChar hbrace
        exact hopening hquote ⟨[], rest, rfl⟩
    exact .cons hfits hapart (ih hplain.tail h.2)

/-- A plain value is read as it is behind a lead. -/
theorem IsLead.sighting?_plain {name : String} {q : Quoting} {lead : List Char}
    (hlead : IsLead name q lead) {cs : List Char} (hplain : q.IsPlain cs) (h : q.quote ∉ cs)
    (rest : List Char) : Markup.sighting? none (lead ++ (cs ++ q.quote :: rest)) =
      some ⟨name, lead, cs.map Atom.ofChar, q.quote :: rest⟩ := by
  have hatoms := Quoting.atoms?_append hlead.isQuote
    (Quoting.spells_ofChar hlead.escapes_of_template hplain h) rest
  rw [flatMap_text_ofChar] at hatoms
  rw [hlead.sighting? rfl, hatoms]
  rfl

/-- A word of a text that begins later. -/
def Word.later (k : Nat) (w : Word) : Word := { w with start := k + w.start }

private theorem wordsFrom_later (k start : Nat) (run cs : List Char) :
    wordsFrom (k + start) run cs = (wordsFrom start run cs).map (Word.later k) := by
  have hend (start : Nat) (run : List Char) :
      endWord (k + start) run = (endWord start run).map (Word.later k) := by
    unfold endWord
    split <;> rfl
  induction cs generalizing start run with
  | nil => exact hend start run
  | cons c cs ih =>
    cases hc : isBlank c with
    | true =>
      rw [wordsFrom_blank hc, wordsFrom_blank hc, List.map_append, ← hend, ← ih,
        ← Nat.add_assoc, ← Nat.add_assoc]
    | false =>
      rw [wordsFrom, wordsFrom, if_neg (by simp [hc]), if_neg (by simp [hc])]
      exact ih start (c :: run)

theorem words_later (text : List Char) (start : Nat) :
    words text start = (words text 0).map (Word.later start) :=
  wordsFrom_later start 0 [] text

end DesignTokens.Markup
