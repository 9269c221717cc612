import DesignTokens.Proofs.Markup.Values
import Mathlib.Data.List.TakeWhile

/-! # Stretches of a source text

An attribute is found behind its lead: a name, an equals sign, a brace perhaps, and a quote. What
stands behind a lead has no part in where the lead ends. -/
namespace DesignTokens.Markup
open Text (utf8Length isBlank)

def AreBlank (cs : List Char) : Prop := ∀ c ∈ cs, isBlank c = true

/-- The text between an equals sign and a quote, and whether a brace is part of it. -/
inductive IsGap : Bool → List Char → Prop
  | blank {bs : List Char} (hbs : AreBlank bs) : IsGap false bs
  | brace {bs ds : List Char} (hbs : AreBlank bs) (hds : AreBlank ds) :
      IsGap true (bs ++ '\x7b' :: ds)

/-- The text in front of the value of an attribute. -/
structure IsLead (name : String) (q : Quoting) (lead : List Char) : Prop where
  isName : name = "class" ∨ name = "className"
  isQuote : isQuote q.quote = true
  exists_gap : ∃ bs braced gap, AreBlank bs ∧ IsGap braced gap ∧
    q = ⟨q.quote, braced || q.quote = '`'⟩ ∧
    lead = name.toList ++ (bs ++ '=' :: (gap ++ [q.quote]))

theorem exists_blank_of_skipBlank (cs : List Char) :
    ∃ bs, AreBlank bs ∧ cs = bs ++ skipBlank cs :=
  ⟨cs.takeWhile isBlank, fun _ hc => List.mem_takeWhile_imp hc,
    List.takeWhile_append_dropWhile.symm⟩

private theorem skipBlank_append {bs : List Char} (h : AreBlank bs) (cs : List Char) :
    skipBlank (bs ++ cs) = skipBlank cs := by
  rw [skipBlank, List.dropWhile_append_of_pos h]
  rfl

private theorem skipBlank_cons {c : Char} (hc : isBlank c = false) (cs : List Char) :
    skipBlank (c :: cs) = c :: cs :=
  List.dropWhile_cons_of_neg (by simp [hc])

private theorem isBlank_of_isQuote {c : Char} (h : isQuote c = true) : isBlank c = false := by
  rcases eq_of_isQuote h with rfl | rfl | rfl <;> decide

theorem quotingOf?_eq_some_iff {escapes : Bool} {cs value : List Char} {q : Quoting} :
    quotingOf? escapes cs = some (q, value) ↔
      isQuote q.quote = true ∧ q = ⟨q.quote, escapes || q.quote = '`'⟩ ∧ cs = q.quote :: value := by
  cases cs with
  | nil => simp [quotingOf?]
  | cons c cs =>
    rw [quotingOf?]
    split
    · rename_i hc
      constructor
      · intro h
        cases h
        exact ⟨hc, rfl, rfl⟩
      · rintro ⟨-, hq, hcs⟩
        obtain ⟨rfl, rfl⟩ := List.cons_eq_cons.1 hcs
        rw [hq]
    · rename_i hc
      refine iff_of_false (by simp) ?_
      rintro ⟨hq, -, hcs⟩
      rw [(List.cons_eq_cons.1 hcs).1] at hc
      exact hc hq

theorem opening?_eq_some_iff {cs value : List Char} {q : Quoting} :
    opening? cs = some (q, value) ↔ ∃ bs braced gap, AreBlank bs ∧ IsGap braced gap ∧
      isQuote q.quote = true ∧ q = ⟨q.quote, braced || q.quote = '`'⟩ ∧
      cs = bs ++ '=' :: (gap ++ q.quote :: value) := by
  constructor
  · intro h
    unfold opening? at h
    split at h
    · rename_i ds hds
      obtain ⟨bs, hbs, hcs⟩ := exists_blank_of_skipBlank cs
      obtain ⟨bs', hbs', hds'⟩ := exists_blank_of_skipBlank ds
      split at h
      · rename_i es hes
        obtain ⟨bs'', hbs'', hes'⟩ := exists_blank_of_skipBlank es
        obtain ⟨hquote, hq, hrest⟩ := quotingOf?_eq_some_iff.1 h
        refine ⟨bs, true, _, hbs, .brace hbs' hbs'', hquote, hq, ?_⟩
        rw [hcs, hds, hds', hes, hes', hrest]
        simp
      · obtain ⟨hquote, hq, hrest⟩ := quotingOf?_eq_some_iff.1 h
        refine ⟨bs, false, bs', hbs, .blank hbs', hquote, hq, ?_⟩
        rw [hcs, hds, hds', hrest]
    · cases h
  · rintro ⟨bs, braced, gap, hbs, hgap, hquote, hq, rfl⟩
    have hskip := skipBlank_cons (isBlank_of_isQuote hquote) value
    unfold opening?
    rw [skipBlank_append hbs, skipBlank_cons (by decide)]
    split
    · rename_i ds hds
      obtain rfl := (List.cons_eq_cons.1 hds).2
      cases hgap with
      | blank hgap =>
        rw [skipBlank_append hgap, hskip]
        split
        · rename_i es hes
          rw [(List.cons_eq_cons.1 hes).1] at hquote
          exact absurd hquote (by decide)
        · exact quotingOf?_eq_some_iff.2 ⟨hquote, hq, rfl⟩
      | brace hbs' hds' =>
        rw [List.append_assoc, skipBlank_append hbs', List.cons_append, skipBlank_cons (by decide)]
        change quotingOf? true (skipBlank _) = some (q, value)
        rw [skipBlank_append hds', hskip]
        exact quotingOf?_eq_some_iff.2 ⟨hquote, hq, rfl⟩
    · rename_i hne
      exact absurd rfl (hne _)

theorem eq_of_attributeName? {cs behind : List Char} {name : String}
    (h : attributeName? cs = some (name, behind)) :
    (name = "class" ∨ name = "className") ∧ cs = name.toList ++ behind := by
  unfold attributeName? at h
  split at h
  · split at h <;> cases h
    · exact ⟨.inr rfl, rfl⟩
    · exact ⟨.inl rfl, rfl⟩
  · cases h

private theorem attributeName?_append {name : String} (hname : name = "class" ∨ name = "className")
    {behind : List Char} (h : behind.head? ≠ some 'N') :
    attributeName? (name.toList ++ behind) = some (name, behind) := by
  rcases hname with rfl | rfl
  · unfold attributeName?
    simp only [String.reduceToList, List.cons_append, List.nil_append]
    split
    · exact absurd rfl h
    · rfl
  · rfl

theorem IsGap.blank_or_brace {braced : Bool} {gap : List Char} (h : IsGap braced gap) {c : Char}
    (hc : c ∈ gap) : isBlank c = true ∨ c = '\x7b' := by
  cases h with
  | blank hbs => exact .inl (hbs c hc)
  | brace hbs hds =>
    rcases List.mem_append.1 hc with hc | hc
    · exact .inl (hbs c hc)
    · rcases List.mem_cons.1 hc with rfl | hc
      · exact .inr rfl
      · exact .inl (hds c hc)

namespace IsLead
variable {name : String} {q : Quoting} {lead : List Char}

theorem escapes_of_template (h : IsLead name q lead) (hq : q.quote = '`') : q.escapes = true := by
  obtain ⟨_, braced, _, _, _, hquoting, _⟩ := h.exists_gap
  rw [hquoting]
  simp [hq]

private theorem exists_name (h : IsLead name q lead) :
    ∃ tail, name.toList = 'c' :: tail ∧ 'c' ∉ tail := by
  rcases h.isName with rfl | rfl
  · exact ⟨['l', 'a', 's', 's'], rfl, by decide⟩
  · exact ⟨['l', 'a', 's', 's', 'N', 'a', 'm', 'e'], rfl, by decide⟩

theorem isPrefixOf (h : IsLead name q lead) (cs : List Char) :
    "class".toList.isPrefixOf (lead ++ cs) = true := by
  obtain ⟨bs, braced, gap, -, -, -, rfl⟩ := h.exists_gap
  rcases h.isName with rfl | rfl <;> rfl

/-- A lead holds no second beginning of a name. -/
theorem exists_cons (h : IsLead name q lead) : ∃ rest, lead = 'c' :: rest ∧ 'c' ∉ rest := by
  obtain ⟨tail, hname, htail⟩ := h.exists_name
  obtain ⟨bs, braced, gap, hbs, hgap, -, rfl⟩ := h.exists_gap
  have hcbs : 'c' ∉ bs := fun hc => absurd (hbs 'c' hc) (by decide)
  have hcgap : 'c' ∉ gap := fun hc => absurd (hgap.blank_or_brace hc) (by decide)
  have hquote : 'c' ≠ q.quote := fun hc => absurd (hc ▸ h.isQuote) (by decide)
  refine ⟨tail ++ (bs ++ '=' :: (gap ++ [q.quote])), by rw [hname, List.cons_append], ?_⟩
  simp [htail, hcbs, hcgap, hquote]

/-- No backslash stands in front of the quote of a lead. -/
theorem exists_last (h : IsLead name q lead) :
    ∃ front c, lead = front ++ [c] ++ [q.quote] ∧ c ≠ '\\' := by
  obtain ⟨bs, braced, gap, -, hgap, -, rfl⟩ := h.exists_gap
  have hne : ('=' :: gap) ≠ [] := List.cons_ne_nil _ _
  refine ⟨name.toList ++ bs ++ ('=' :: gap).dropLast, ('=' :: gap).getLast hne, ?_, ?_⟩
  · rw [List.append_assoc _ (List.dropLast _), List.dropLast_append_getLast hne]
    simp
  · intro hlast
    rcases List.mem_cons.1 (hlast ▸ List.getLast_mem hne) with hc | hc
    · exact absurd hc (by decide)
    · exact absurd (hgap.blank_or_brace hc) (by decide)

end IsLead

variable {name : String} {q : Quoting} {lead : List Char}

/-- A lead opens a value that begins right behind it. -/
theorem IsLead.opens (h : IsLead name q lead) (value : List Char) :
    ∃ behind, attributeName? (lead ++ value) = some (name, behind) ∧
      opening? behind = some (q, value) := by
  obtain ⟨bs, braced, gap, hbs, hgap, hquoting, rfl⟩ := h.exists_gap
  have hopening : opening? (bs ++ '=' :: (gap ++ q.quote :: value)) = some (q, value) :=
    opening?_eq_some_iff.2 ⟨bs, braced, gap, hbs, hgap, h.isQuote, hquoting, rfl⟩
  have hhead : (bs ++ '=' :: (gap ++ q.quote :: value)).head? ≠ some 'N' := by
    cases bs with
    | nil => simp
    | cons b bs =>
      intro hb
      rw [List.cons_append, List.head?_cons, Option.some.injEq] at hb
      exact absurd (hb ▸ hbs b List.mem_cons_self) (by decide)
  refine ⟨_, ?_, hopening⟩
  rw [← attributeName?_append h.isName hhead]
  simp

/-- What is behind a lead is read in its quotes. -/
theorem IsLead.sighting? (h : IsLead name q lead) {previous : Option Char}
    (hprevious : previous.any isNameChar = false) (value : List Char) :
    sighting? previous (lead ++ value) = (q.atoms? value).map fun (as, rest) =>
      ⟨name, lead, as, rest⟩ := by
  obtain ⟨behind, hname, hopening⟩ := h.opens value
  rw [Markup.sighting?, hprevious, hname]
  dsimp only
  rw [hopening]
  dsimp only
  rw [List.length_append, Nat.add_sub_cancel, List.take_left]
  rfl

/-- A name and what opens a value behind it make up a lead. -/
theorem exists_lead {cs behind value : List Char} (hname : attributeName? cs = some (name, behind))
    (hopening : opening? behind = some (q, value)) :
    ∃ lead, IsLead name q lead ∧ cs = lead ++ value := by
  obtain ⟨hisName, hcs⟩ := eq_of_attributeName? hname
  obtain ⟨bs, braced, gap, hbs, hgap, hquote, hquoting, hbehind⟩ := opening?_eq_some_iff.1 hopening
  refine ⟨name.toList ++ (bs ++ '=' :: (gap ++ [q.quote])),
    ⟨hisName, hquote, bs, braced, gap, hbs, hgap, hquoting, rfl⟩, ?_⟩
  rw [hcs, hbehind]
  simp

theorem exists_lead_of_sighting? {previous : Option Char} {cs : List Char} {s : Sighting}
    (h : sighting? previous cs = some s) :
    previous.any isNameChar = false ∧ ∃ q value, IsLead s.name q s.lead ∧
      cs = s.lead ++ value ∧ q.atoms? value = some (s.atoms, s.rest) := by
  unfold sighting? at h
  split at h
  · cases h
  · rename_i hprevious
    split at h
    · cases h
    · rename_i name behind hname
      split at h
      · cases h
      · rename_i q value hopening
        obtain ⟨⟨atoms, rest⟩, hatoms, rfl⟩ := Option.map_eq_some_iff.1 h
        obtain ⟨lead, hlead, rfl⟩ := exists_lead hname hopening
        dsimp only
        rw [List.length_append, Nat.add_sub_cancel, List.take_left]
        exact ⟨by simpa using hprevious, q, value, hlead, rfl, hatoms⟩

/-- A sighting is spelled by its lead, its atoms and the rest. -/
theorem eq_of_sighting? {previous : Option Char} {cs : List Char} {s : Sighting}
    (h : sighting? previous cs = some s) :
    ∃ q behind, IsLead s.name q s.lead ∧ q.Spells s.atoms ∧ s.rest = q.quote :: behind ∧
      cs = s.lead ++ (s.atoms.flatMap Atom.text ++ s.rest) := by
  obtain ⟨-, q, value, hlead, rfl, hatoms⟩ := exists_lead_of_sighting? h
  obtain ⟨hspells, rfl, hrest⟩ := Quoting.spells_of_atoms? hatoms
  obtain ⟨behind, hbehind⟩ := List.head?_eq_some_iff.1 hrest
  exact ⟨q, behind, hlead, hspells, hbehind, rfl⟩

/-- The attribute that is seen in front of a text that begins at an offset. -/
def Sighting.attribute (s : Sighting) (offset : Nat) : Attribute :=
  ⟨s.name, offset + utf8Length s.lead, s.atoms⟩

theorem sighting?_of_ne {c : Char} (hc : c ≠ 'c') (previous : Option Char) (cs : List Char) :
    sighting? previous (c :: cs) = none := by
  rw [Option.eq_none_iff_forall_ne_some]
  intro s hs
  obtain ⟨-, q, value, hlead, hcs, -⟩ := exists_lead_of_sighting? hs
  obtain ⟨rest, hrest, -⟩ := hlead.exists_cons
  rw [hrest] at hcs
  exact hc (List.cons_eq_cons.1 hcs).1

theorem segmentsFrom_nil (previous : Option Char) (offset : Nat) :
    segmentsFrom previous offset [] = [] := by
  rw [segmentsFrom]

theorem segmentsFrom_value {previous : Option Char} {cs : List Char} {s : Sighting}
    (h : sighting? previous cs = some s) (offset : Nat) :
    segmentsFrom previous offset cs =
      .plain s.lead :: .value ⟨s.name, offset + utf8Length s.lead, s.atoms⟩ ::
        segmentsFrom none (Attribute.stop ⟨s.name, offset + utf8Length s.lead, s.atoms⟩) s.rest := by
  cases cs with
  | nil => exact absurd (length_sighting?_lt h) (Nat.not_lt_zero _)
  | cons c cs =>
    rw [segmentsFrom.eq_def]
    dsimp only
    split
    · rename_i s' hs
      cases hs.symm.trans h
      rfl
    · rename_i hnone
      cases hnone.symm.trans h

theorem segmentsFrom_plain {previous : Option Char} {c : Char} {cs : List Char}
    (h : sighting? previous (c :: cs) = none) (offset : Nat) :
    segmentsFrom previous offset (c :: cs) =
      .plain [c] :: segmentsFrom (some c) (offset + c.utf8Size) cs := by
  rw [segmentsFrom.eq_def]
  dsimp only
  split
  · rename_i hs
    cases hs.symm.trans h
  · rfl

theorem segmentsFrom_of_ne {c : Char} (hc : c ≠ 'c') (previous : Option Char) (offset : Nat)
    (cs : List Char) : segmentsFrom previous offset (c :: cs) =
      .plain [c] :: segmentsFrom (some c) (offset + c.utf8Size) cs :=
  segmentsFrom_plain (sighting?_of_ne hc previous cs) offset

/-- The stretches of a text make it up. -/
theorem text_segmentsFrom (previous : Option Char) (offset : Nat) (cs : List Char) :
    (segmentsFrom previous offset cs).flatMap Segment.text = cs := by
  fun_induction segmentsFrom previous offset cs with
  | case1 => rfl
  | case2 previous offset c cs s hs found ih =>
    obtain ⟨q, behind, -, -, -, hcs⟩ := eq_of_sighting? hs
    rw [List.flatMap_cons, List.flatMap_cons, ih]
    exact hcs.symm
  | case3 previous offset c cs hnone ih =>
    rw [List.flatMap_cons, ih]
    rfl

/-- The closing quote of a value begins no attribute. -/
theorem sighting?_rest {previous : Option Char} {cs : List Char} {s : Sighting}
    (h : sighting? previous cs = some s) (previous' : Option Char) :
    sighting? previous' s.rest = none := by
  obtain ⟨q, behind, hlead, -, hrest, -⟩ := eq_of_sighting? h
  rw [hrest]
  exact sighting?_of_ne (fun hc => absurd (hc ▸ hlead.isQuote) (by decide)) previous' behind

/-- The stretches of a text behind all that is in front of it. -/
inductive Stretches : List Char → List Char → List Segment → Prop
  | nil {before : List Char} : Stretches before [] []
  | value {before cs : List Char} {s : Sighting} {segments : List Segment}
      (hs : sighting? before.getLast? cs = some s)
      (h : Stretches (before ++ (s.lead ++ s.atoms.flatMap Atom.text)) s.rest segments) :
      Stretches before cs
        (.plain s.lead :: .value (s.attribute (utf8Length before)) :: segments)
  | plain {before : List Char} {c : Char} {cs : List Char} {segments : List Segment}
      (hnone : sighting? before.getLast? (c :: cs) = none)
      (h : Stretches (before ++ [c]) cs segments) :
      Stretches before (c :: cs) (.plain [c] :: segments)

private theorem stretches_segmentsFrom {previous : Option Char} {offset : Nat}
    {before cs : List Char} (hoffset : offset = utf8Length before)
    (hprevious : sighting? before.getLast? cs = sighting? previous cs) :
    Stretches before cs (segmentsFrom previous offset cs) := by
  fun_induction segmentsFrom previous offset cs generalizing before with
  | case1 => exact .nil
  | case2 previous offset c cs s hs found =>
    rename_i ih
    subst hoffset
    refine .value (hprevious.trans hs) (ih ?_ ?_)
    · rw [Text.utf8Length_append, Text.utf8Length_append, ← Nat.add_assoc]
      rfl
    · rw [sighting?_rest hs, sighting?_rest hs]
  | case3 previous offset c cs hnone ih =>
    subst hoffset
    refine .plain (hprevious.trans hnone) (ih ?_ ?_)
    · rw [Text.utf8Length_append]
      rfl
    · rw [List.getLast?_concat]

theorem stretches_segments (source : List Char) : Stretches [] source (segments source) :=
  stretches_segmentsFrom rfl rfl

/-- An attribute is seen in a text behind all that is in front of it. -/
def Attribute.SeenIn (a : Attribute) (source : List Char) : Prop :=
  ∃ before cs s, source = before ++ cs ∧ sighting? before.getLast? cs = some s ∧
    a = s.attribute (utf8Length before)

private theorem Stretches.seenIn {before cs : List Char} {segments : List Segment} {a : Attribute}
    (h : Stretches before cs segments) (ha : a ∈ segments.filterMap Segment.attribute?) :
    a.SeenIn (before ++ cs) := by
  induction h with
  | nil => cases ha
  | @value before cs s segments hs h ih =>
    rcases List.mem_cons.1 ha with rfl | ha
    · exact ⟨before, cs, s, rfl, hs, rfl⟩
    · obtain ⟨q, behind, -, -, -, hcs⟩ := eq_of_sighting? hs
      rw [hcs]
      simpa using ih ha
  | plain hnone h ih => simpa using ih ha

theorem seenIn_of_mem {source : List Char} {a : Attribute} (h : a ∈ attributes source) :
    a.SeenIn source := (stretches_segments source).seenIn h

end DesignTokens.Markup
