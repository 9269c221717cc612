import DesignTokens.Proofs.Markup.Interpolation
import Mathlib.Data.List.Chain

/-! # Values of class attributes

The atoms that are read from a value spell it, and what such atoms spell is read as these atoms
again. The pieces of a value are the runs of its atoms without blanks, and a value that is put
together from runs, with a space between them, has these runs as its pieces. -/
namespace DesignTokens.Markup
open Text (utf8Length)

theorem eq_of_isQuote {c : Char} (h : isQuote c = true) : c = '"' ∨ c = '\'' ∨ c = '`' := by
  simpa [isQuote, or_assoc] using h

theorem ne_quote_of_isBlank {q : Quoting} {c : Char} (hq : isQuote q.quote = true)
    (hc : Text.isBlank c = true) : c ≠ q.quote := by
  rintro rfl
  rcases eq_of_isQuote hq with h | h | h <;> rw [h] at hc <;> exact absurd hc (by decide)

/-- An atom can be read from a value in these quotes. -/
def Atom.Fits (q : Quoting) : Atom → Prop
  | .blank c => Text.isBlank c = true
  | .char c => c ≠ q.quote ∧ Text.isBlank c = false ∧ (q.escapes = true → c ≠ '\\')
  | .escaped _ => q.escapes = true
  | .interpolation code => q.quote = '`' ∧ codeLength 1 code = some code.length

/-- Two atoms side by side do not begin an interpolation. -/
def Atom.Apart (q : Quoting) (a b : Atom) : Prop :=
  q.quote = '`' → a = .char '$' → b ≠ .char '\x7b'

/-- The atoms of a value in these quotes. -/
structure Quoting.Spells (q : Quoting) (as : List Atom) : Prop where
  fits : ∀ a ∈ as, a.Fits q
  apart : as.IsChain (Atom.Apart q)

namespace Quoting.Spells
variable {q : Quoting} {a : Atom} {as bs : List Atom}

theorem nil : q.Spells [] := ⟨by simp, .nil⟩

theorem cons (ha : a.Fits q) (hapart : ∀ b ∈ as.head?, a.Apart q b) (h : q.Spells as) :
    q.Spells (a :: as) :=
  ⟨List.forall_mem_cons.2 ⟨ha, h.fits⟩, List.isChain_cons.2 ⟨hapart, h.apart⟩⟩

theorem tail (h : q.Spells (a :: as)) : q.Spells as :=
  ⟨(List.forall_mem_cons.1 h.fits).2, (List.isChain_cons.1 h.apart).2⟩

theorem within (h : q.Spells as) (hbs : bs <:+: as) : q.Spells bs :=
  ⟨fun b hb => h.fits b (hbs.subset hb), List.IsChain.infix h.apart hbs⟩

/-- A blank keeps what is before it apart from what is behind it. -/
theorem append_blank {c : Char} (hc : Text.isBlank c = true) (has : q.Spells as)
    (hbs : q.Spells bs) : q.Spells (as ++ .blank c :: bs) := by
  have hblank : q.Spells (.blank c :: bs) := by
    refine cons hc (fun b _ => ?_) hbs
    simp [Atom.Apart]
  refine ⟨List.forall_mem_append.2 ⟨has.fits, hblank.fits⟩, has.apart.append hblank.apart ?_⟩
  simp [Atom.Apart]

end Quoting.Spells

private theorem codeLength_take {level n : Nat} {cs : List Char} (hlevel : 0 < level)
    (h : codeLength level cs = some n) :
    n ≤ cs.length ∧ codeLength level (cs.take n) = some n := by
  obtain ⟨init, rest, rfl, rfl, hopen⟩ := (codeLength_eq_some_iff hlevel).1 h
  refine ⟨by simp, (codeLength_eq_some_iff hlevel).2 ⟨init, [], ?_, rfl, hopen⟩⟩
  simp [List.take_append, List.take_of_length_le]

private theorem codeLength_append {level n : Nat} {cs : List Char} (hlevel : 0 < level)
    (h : codeLength level cs = some n) (more : List Char) :
    codeLength level (cs ++ more) = some n := by
  obtain ⟨init, rest, rfl, rfl, hopen⟩ := (codeLength_eq_some_iff hlevel).1 h
  exact (codeLength_eq_some_iff hlevel).2 ⟨init, rest ++ more, by simp, rfl, hopen⟩

/-- Just an opening brace by itself spells an opening brace at its front. -/
theorem Atom.eq_brace {q : Quoting} {a : Atom} {cs more : List Char} (ha : a.Fits q)
    (h : a.text ++ cs = '\x7b' :: more) : a = .char '\x7b' := by
  cases a with
  | blank c =>
    obtain rfl : c = '\x7b' := (List.cons_eq_cons.1 h).1
    have hblank : Text.isBlank '\x7b' = true := ha
    exact absurd hblank (by decide)
  | char c => rw [(List.cons_eq_cons.1 h).1]
  | escaped d => exact absurd (List.cons_eq_cons.1 h).1 (by decide)
  | interpolation code => exact absurd (List.cons_eq_cons.1 h).1 (by decide)

/-- What is read off a value spells it up to its closing quote. -/
theorem Quoting.spells_of_atoms? {q : Quoting} {cs rest : List Char} {as : List Atom}
    (h : q.atoms? cs = some (as, rest)) :
    q.Spells as ∧ cs = as.flatMap Atom.text ++ rest ∧ rest.head? = some q.quote := by
  fun_induction Quoting.atoms? q cs generalizing as rest with
  | case1 => cases h
  | case2 cs =>
    cases h
    exact ⟨.nil, rfl, rfl⟩
  | case3 c cs hquote hblank ih =>
    obtain ⟨⟨as, rest⟩, has, h⟩ := Option.map_eq_some_iff.1 h
    cases h
    obtain ⟨hspells, rfl, hrest⟩ := ih has
    exact ⟨hspells.cons hblank (by simp [Atom.Apart]), rfl, hrest⟩
  | case4 => cases h
  | case5 c hquote hblank hescapes d cs ih =>
    obtain ⟨⟨as, rest⟩, has, h⟩ := Option.map_eq_some_iff.1 h
    cases h
    obtain ⟨hspells, rfl, hrest⟩ := ih has
    obtain ⟨hq, rfl⟩ : q.escapes = true ∧ c = '\\' := by simpa using hescapes
    exact ⟨hspells.cons hq (by simp [Atom.Apart]), rfl, hrest⟩
  | case6 => cases h
  | case7 c cs hquote hblank hescapes hopens n hn ih =>
    obtain ⟨⟨as, rest⟩, has, h⟩ := Option.map_eq_some_iff.1 h
    cases h
    obtain ⟨hspells, hcs, hrest⟩ := ih has
    obtain ⟨⟨hq, rfl⟩, hbrace⟩ : (q.quote = '`' ∧ c = '$') ∧ cs.head? = some '\x7b' := by
      simpa using hopens
    obtain ⟨code, rfl⟩ := List.head?_eq_some_iff.1 hbrace
    obtain ⟨hle, htake⟩ := codeLength_take Nat.one_pos hn
    have hlength : (code.take n).length = n := List.length_take_of_le hle
    refine ⟨hspells.cons ⟨hq, ?_⟩ (by simp [Atom.Apart]), ?_, hrest⟩
    · exact htake.trans (congrArg some hlength.symm)
    · change '$' :: '\x7b' :: code = '$' :: '\x7b' :: (code.take n ++ as.flatMap Atom.text ++ rest)
      rw [List.append_assoc, ← hcs]
      exact congrArg (fun cs => '$' :: '\x7b' :: cs) (List.take_append_drop n code).symm
  | case8 c cs hquote hblank hescapes hopens ih =>
    obtain ⟨⟨as, rest⟩, has, h⟩ := Option.map_eq_some_iff.1 h
    cases h
    obtain ⟨hspells, rfl, hrest⟩ := ih has
    refine ⟨hspells.cons ⟨hquote, by simpa using hblank, ?_⟩ ?_, rfl, hrest⟩
    · simpa using hescapes
    · intro b hb hq hc
      rintro rfl
      obtain ⟨as, rfl⟩ := List.head?_eq_some_iff.1 hb
      obtain ⟨rfl⟩ := hc
      exact hopens (by simp [hq, Atom.text])

namespace Quoting
variable {q : Quoting} {c : Char} {cs more : List Char}

private theorem atoms?_quote : q.atoms? (q.quote :: cs) = some ([], q.quote :: cs) := by
  rw [atoms?.eq_def]
  exact if_pos rfl

private theorem atoms?_blank (hquote : c ≠ q.quote) (hc : Text.isBlank c = true) :
    q.atoms? (c :: cs) = (q.atoms? cs).map fun (as, rest) => (.blank c :: as, rest) := by
  rw [atoms?.eq_def]
  exact (if_neg hquote).trans (if_pos hc)

private theorem atoms?_escaped (hquote : '\\' ≠ q.quote) (hq : q.escapes = true) :
    q.atoms? ('\\' :: c :: cs) = (q.atoms? cs).map fun (as, rest) => (.escaped c :: as, rest) := by
  rw [atoms?.eq_def]
  exact (if_neg hquote).trans ((if_neg (by decide)).trans (if_pos (by simp [hq])))

private theorem atoms?_interpolation {n : Nat} (hq : q.quote = '`')
    (hn : codeLength 1 cs = some n) :
    q.atoms? ('$' :: '\x7b' :: cs) = (q.atoms? (cs.drop n)).map fun (as, rest) =>
      (.interpolation (cs.take n) :: as, rest) := by
  rw [atoms?.eq_def]
  refine (if_neg (by rw [hq]; decide)).trans ((if_neg (by decide)).trans ((if_neg (by simp)).trans
    ((if_pos (by simp [hq])).trans ?_)))
  rw [List.drop_one, List.tail_cons, hn]

private theorem atoms?_char (hquote : c ≠ q.quote) (hblank : Text.isBlank c = false)
    (hescapes : q.escapes = true → c ≠ '\\')
    (hopens : q.quote = '`' → c = '$' → cs.head? ≠ some '\x7b') :
    q.atoms? (c :: cs) = (q.atoms? cs).map fun (as, rest) => (.char c :: as, rest) := by
  rw [atoms?.eq_def]
  refine (if_neg hquote).trans ((if_neg (by simp [hblank])).trans ((if_neg (by simpa)).trans
    (if_neg ?_)))
  simpa using hopens

/-- What fits a value in quotes is read off it as it is. -/
theorem atoms?_append (hq : isQuote q.quote = true) {as : List Atom} (h : q.Spells as)
    (more : List Char) :
    q.atoms? (as.flatMap Atom.text ++ q.quote :: more) = some (as, q.quote :: more) := by
  induction as with
  | nil => exact atoms?_quote
  | cons a as ih =>
    have ha := (List.forall_mem_cons.1 h.fits).1
    have hrest := ih h.tail
    rw [List.flatMap_cons, List.append_assoc]
    cases a with
    | blank c =>
      exact (atoms?_blank (ne_quote_of_isBlank hq ha) ha).trans (congrArg (Option.map _) hrest)
    | char c =>
      obtain ⟨hquote, hblank, hescapes⟩ := ha
      refine (atoms?_char hquote hblank hescapes ?_).trans ?_
      · intro ht hc hbrace
        obtain ⟨behind, hbehind⟩ := List.head?_eq_some_iff.1 hbrace
        cases as with
        | nil =>
          have : q.quote = '\x7b' := (List.cons_eq_cons.1 hbehind).1
          exact absurd (this.symm.trans ht) (by decide)
        | cons b as =>
          rw [List.flatMap_cons, List.append_assoc] at hbehind
          have hb := Atom.eq_brace (List.forall_mem_cons.1 h.tail.fits).1 hbehind
          exact (List.isChain_cons.1 h.apart).1 b rfl ht (congrArg Atom.char hc) hb
      · exact congrArg (Option.map _) hrest
    | escaped d =>
      have hquote : '\\' ≠ q.quote := by
        intro hquote
        rcases eq_of_isQuote hq with h | h | h <;> exact absurd (hquote.trans h) (by decide)
      exact (atoms?_escaped hquote ha).trans (congrArg (Option.map _) hrest)
    | interpolation code =>
      obtain ⟨ht, hcode⟩ := ha
      refine (atoms?_interpolation ht (codeLength_append Nat.one_pos hcode _)).trans ?_
      rw [List.drop_left, List.take_left, hrest]
      rfl

end Quoting

/-- A run unless it is empty. -/
def endRun (run : List Atom) : List (List Atom) := if run.isEmpty then [] else [run]

/-- The runs of some atoms behind a run without blanks, which is held in reverse. -/
def runsFrom (run : List Atom) : List Atom → List (List Atom)
  | [] => endRun run.reverse
  | a :: as => if a.isBlank then endRun run.reverse ++ runsFrom [] as else runsFrom (a :: run) as

/-- The greatest parts of a value without blanks. -/
def runs (as : List Atom) : List (List Atom) := runsFrom [] as

/-- A value with some runs and a space between them. -/
def ofRuns (rs : List (List Atom)) : List Atom := [Atom.blank ' '].intercalate rs

private theorem mem_endRun {run r : List Atom} : r ∈ endRun run ↔ r = run ∧ run ≠ [] := by
  unfold endRun
  split <;> simp_all

namespace Piece

/-- A piece wherever it stands. -/
def unplaced : Piece → Piece
  | name word => name ⟨word.text, 0⟩
  | dynamic word => dynamic ⟨word.text, 0⟩

def ofAtoms (run : List Atom) : Piece :=
  let word : Word := ⟨run.flatMap Atom.text, 0⟩
  if run.any Atom.isInterpolation then dynamic word else name word

@[simp] theorem word_unplaced (p : Piece) : p.unplaced.word.text = p.word.text := by
  cases p <;> rfl

@[simp] theorem word_ofAtoms (run : List Atom) :
    (ofAtoms run).word.text = run.flatMap Atom.text := by
  unfold ofAtoms
  split <;> rfl

theorem unplaced_ofRun (start : Nat) (run : List Atom) :
    (ofRun start run).map unplaced = (endRun run).map ofAtoms := by
  unfold ofRun endRun
  split
  · rfl
  · rw [List.map_singleton, List.map_singleton, apply_ite unplaced]
    rfl

end Piece

/-- The pieces of a value are its runs. -/
theorem unplaced_piecesFrom (start : Nat) (run as : List Atom) :
    (piecesFrom start run as).map Piece.unplaced = (runsFrom run as).map Piece.ofAtoms := by
  induction as generalizing start run with
  | nil => exact Piece.unplaced_ofRun start run.reverse
  | cons a as ih =>
    rw [piecesFrom, runsFrom]
    split
    · rw [List.map_append, List.map_append, Piece.unplaced_ofRun, ih]
    · exact ih _ _

theorem of_mem_runsFrom {run as r : List Atom} (hrun : ∀ a ∈ run, a.isBlank = false)
    (h : r ∈ runsFrom run as) :
    r ≠ [] ∧ (∀ a ∈ r, a.isBlank = false) ∧ r <:+: run.reverse ++ as := by
  have hend {run : List Atom} (hrun : ∀ a ∈ run, a.isBlank = false) (h : r ∈ endRun run.reverse) :
      r ≠ [] ∧ (∀ a ∈ r, a.isBlank = false) ∧ r = run.reverse := by
    obtain ⟨rfl, hne⟩ := mem_endRun.1 h
    exact ⟨hne, by simpa using hrun, rfl⟩
  induction as generalizing run with
  | nil =>
    obtain ⟨hne, hblank, rfl⟩ := hend hrun h
    exact ⟨hne, hblank, List.infix_append' [] _ _⟩
  | cons a as ih =>
    rw [runsFrom] at h
    by_cases ha : a.isBlank = true
    · rw [if_pos ha] at h
      rcases List.mem_append.1 h with h | h
      · obtain ⟨hne, hblank, rfl⟩ := hend hrun h
        exact ⟨hne, hblank, List.infix_append' [] _ _⟩
      · obtain ⟨hne, hblank, hwithin⟩ := ih (by simp) h
        exact ⟨hne, hblank, hwithin.trans ⟨run.reverse ++ [a], [], by simp⟩⟩
    · rw [if_neg ha] at h
      have hrun' : ∀ b ∈ a :: run, b.isBlank = false :=
        List.forall_mem_cons.2 ⟨Bool.eq_false_iff.2 ha, hrun⟩
      obtain ⟨hne, hblank, hwithin⟩ := ih hrun' h
      rw [List.reverse_cons, List.append_assoc] at hwithin
      exact ⟨hne, hblank, hwithin⟩

theorem isRun_of_mem_runs {as r : List Atom} (h : r ∈ runs as) :
    r ≠ [] ∧ ∀ a ∈ r, a.isBlank = false :=
  have hr := of_mem_runsFrom (by simp) h
  ⟨hr.1, hr.2.1⟩

private theorem runsFrom_append {r : List Atom} (h : ∀ a ∈ r, a.isBlank = false)
    (run as : List Atom) :
    runsFrom run (r ++ as) = runsFrom (r.reverse ++ run) as := by
  induction r generalizing run with
  | nil => rfl
  | cons a r ih =>
    obtain ⟨ha, hr⟩ := List.forall_mem_cons.1 h
    rw [List.cons_append, runsFrom, if_neg (by simp [ha]), ih hr]
    simp

/-- A value that is put together from runs has these runs. -/
theorem runs_ofRuns {rs : List (List Atom)} (h : ∀ r ∈ rs, r ≠ [] ∧ ∀ a ∈ r, a.isBlank = false) :
    runs (ofRuns rs) = rs := by
  have hone {r : List Atom} (hr : r ≠ []) : endRun (r.reverse ++ []).reverse = [r] := by
    rw [List.append_nil, List.reverse_reverse, endRun, if_neg (by simpa using hr)]
  induction rs with
  | nil => rfl
  | cons r rs ih =>
    obtain ⟨⟨hne, hblank⟩, hrs⟩ := List.forall_mem_cons.1 h
    cases rs with
    | nil =>
      have hruns := runsFrom_append hblank [] []
      rw [List.append_nil, runsFrom, hone hne] at hruns
      rwa [ofRuns, List.intercalate_singleton]
    | cons r' rs =>
      rw [ofRuns, List.intercalate_cons_cons, List.append_assoc, runs, runsFrom_append hblank,
        List.singleton_append, runsFrom]
      refine (if_pos (by decide)).trans ?_
      rw [hone hne]
      exact congrArg (r :: ·) (ih hrs)

theorem text_ofRuns (rs : List (List Atom)) :
    (ofRuns rs).flatMap Atom.text = [' '].intercalate (rs.map (·.flatMap Atom.text)) := by
  induction rs with
  | nil => rfl
  | cons r rs ih =>
    cases rs with
    | nil => simp [ofRuns]
    | cons r' rs =>
      rw [ofRuns, List.intercalate_cons_cons, List.flatMap_append, List.flatMap_append]
      rw [ofRuns] at ih
      rw [ih, List.map_cons, List.map_cons, List.map_cons, List.intercalate_cons_cons]
      rfl

namespace Quoting.Spells
variable {q : Quoting} {as : List Atom}

theorem of_mem_runs (h : q.Spells as) {r : List Atom} (hr : r ∈ runs as) : q.Spells r :=
  h.within (of_mem_runsFrom (by simp) hr).2.2

theorem ofRuns {rs : List (List Atom)} (h : ∀ r ∈ rs, q.Spells r) : q.Spells (ofRuns rs) := by
  induction rs with
  | nil => exact nil
  | cons r rs ih =>
    obtain ⟨hr, hrs⟩ := List.forall_mem_cons.1 h
    cases rs with
    | nil => rwa [Markup.ofRuns, List.intercalate_singleton]
    | cons r' rs =>
      rw [Markup.ofRuns, List.intercalate_cons_cons, List.append_assoc]
      exact hr.append_blank (by decide) (ih hrs)

end Quoting.Spells
end DesignTokens.Markup
