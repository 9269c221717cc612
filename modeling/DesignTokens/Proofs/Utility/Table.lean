import DesignTokens.Utility.Standard
import DesignTokens.Text.Position
import Mathlib.Data.List.Infix

/-! # Classes that are put together

A class is read as a lead, a stem and what follows it, where the stem is the first of the longest
entries that fit. The same lead and stem in front of another name are read as such again, unless the
name has a colon of its own or turns the stem into a longer one. -/
namespace DesignTokens.Utility

theorem exists_append_of_isPrefix {s t : String} (h : s.toList <+: t.toList) :
    ∃ tail, s ++ tail = t := by
  obtain ⟨tail, htail⟩ := h
  refine ⟨String.ofList tail, ?_⟩
  rw [← String.toList_inj, String.toList_append, String.toList_ofList, htail]

private theorem size_le_of_isPrefix {s t : String} (h : s.toList <+: t.toList) :
    s.utf8ByteSize ≤ t.utf8ByteSize := by
  obtain ⟨tail, rfl⟩ := exists_append_of_isPrefix h
  rw [String.utf8ByteSize_append]
  exact Nat.le_add_right _ _

theorem eq_of_prefix_of_size_le {s t : String} (h : s.toList <+: t.toList)
    (hsize : t.utf8ByteSize ≤ s.utf8ByteSize) : s = t := by
  obtain ⟨tail, rfl⟩ := exists_append_of_isPrefix h
  rw [String.utf8ByteSize_append] at hsize
  have hempty : tail = "" := String.utf8ByteSize_eq_zero_iff.1 (by omega)
  rw [hempty, String.append_empty]

/-- Of two names at the front of one text the longer one has more bytes. -/
theorem size_le_iff_of_isPrefix {s t : String} {cs : List Char} (hs : s.toList <+: cs)
    (ht : t.toList <+: cs) : s.utf8ByteSize ≤ t.utf8ByteSize ↔ s.length ≤ t.length := by
  rw [← String.length_toList, ← String.length_toList]
  rcases List.prefix_or_prefix_of_prefix hs ht with h | h
  · exact iff_of_true (size_le_of_isPrefix h) h.length_le
  · constructor
    · intro hsize
      rw [eq_of_prefix_of_size_le h hsize]
    · intro hlength
      rw [String.toList_inj.1 (h.eq_of_length_le hlength)]

namespace Entry

theorem remainder_append {e : Entry} (h : e.isStem = true) (value : List Char) :
    e.remainder (e.name.toList ++ value) = value := by
  rw [remainder, if_pos h, List.drop_left]

theorem prefix_of_fits {e : Entry} {utility : List Char} (h : e.fits utility = true) :
    e.name.toList <+: utility := by
  rw [fits] at h
  split at h
  · exact List.isPrefixOf_iff_prefix.1 h
  · exact (of_decide_eq_true h) ▸ List.prefix_refl _

theorem fits_append {e : Entry} (h : e.isStem = true) (value : List Char) :
    e.fits (e.name.toList ++ value) = true := by
  rw [fits, if_pos h, List.isPrefixOf_iff_prefix]
  exact List.prefix_append _ _

end Entry

namespace Table
variable {t : Table} {e e' : Entry} {utility : List Char}

private theorem exists_longer (best : Option Entry) (e : Entry) :
    ∃ e', longer best e = some e' ∧ (e' = e ∨ best = some e') ∧
      e.name.utf8ByteSize ≤ e'.name.utf8ByteSize ∧
      ∀ b ∈ best, b.name.utf8ByteSize ≤ e'.name.utf8ByteSize := by
  cases best with
  | none => exact ⟨e, rfl, .inl rfl, Nat.le_refl _, by simp⟩
  | some b =>
    by_cases h : b.name.utf8ByteSize < e.name.utf8ByteSize
    · exact ⟨e, if_pos h, .inl rfl, Nat.le_refl _, by simpa using Nat.le_of_lt h⟩
    · exact ⟨b, if_neg h, .inr rfl, Nat.not_lt.1 h, by simp⟩

theorem exists_foldl_longer (best : Option Entry) (es : List Entry) :
    (best = none ∧ es = []) ∨ ∃ e, es.foldl longer best = some e ∧ (e ∈ es ∨ best = some e) ∧
      (∀ e' ∈ es, e'.name.utf8ByteSize ≤ e.name.utf8ByteSize) ∧
      ∀ b ∈ best, b.name.utf8ByteSize ≤ e.name.utf8ByteSize := by
  induction es generalizing best with
  | nil =>
    cases best with
    | none => exact .inl ⟨rfl, rfl⟩
    | some b => exact .inr ⟨b, rfl, .inr rfl, by simp, by simp⟩
  | cons x es ih =>
    obtain ⟨y, hy, hfrom, hx, hbest⟩ := exists_longer best x
    rcases ih (longer best x) with ⟨hnone, -⟩ | ⟨e, he, hmem, hes, hle⟩
    · rw [hy] at hnone
      cases hnone
    · have hye : y.name.utf8ByteSize ≤ e.name.utf8ByteSize := hle y hy
      refine .inr ⟨e, he, ?_, ?_, fun b hb => (hbest b hb).trans hye⟩
      · rcases hmem with hmem | hmem
        · exact .inl (List.mem_cons_of_mem x hmem)
        · obtain rfl : y = e := Option.some.inj (hy.symm.trans hmem)
          rcases hfrom with rfl | hfrom
          · exact .inl List.mem_cons_self
          · exact .inr hfrom
      · exact List.forall_mem_cons.2 ⟨hx.trans hye, hes⟩

/-- The entry of a class is one of the longest that fit it. -/
theorem longest_of_find? (h : t.find? utility = some e) :
    e ∈ t.entries ∧ e.fits utility = true ∧
      ∀ e' ∈ t.entries, e'.fits utility = true → e'.name.utf8ByteSize ≤ e.name.utf8ByteSize := by
  rcases exists_foldl_longer none (t.entries.filter (·.fits utility)) with
    ⟨-, hnil⟩ | ⟨x, hx, hmem, hle, -⟩
  · rw [find?, hnil] at h
    cases h
  · obtain rfl : x = e := Option.some.inj (hx.symm.trans h)
    have hx := List.mem_filter.1 (hmem.resolve_right (by simp))
    exact ⟨hx.1, hx.2, fun e' he' hfits => hle e' (List.mem_filter.2 ⟨he', hfits⟩)⟩

theorem exists_find? (he : e ∈ t.entries) (hfits : e.fits utility = true) :
    ∃ e', t.find? utility = some e' := by
  rcases exists_foldl_longer none (t.entries.filter (·.fits utility)) with
    ⟨-, hnil⟩ | ⟨x, hx, -⟩
  · exact absurd hfits (List.filter_eq_nil_iff.1 hnil e he)
  · exact ⟨x, hx⟩

theorem find?_eq_some (he : e ∈ t.entries) (hfits : e.fits utility = true)
    (h : ∀ e' ∈ t.entries, e'.fits utility = true →
      e' = e ∨ e'.name.utf8ByteSize < e.name.utf8ByteSize) : t.find? utility = some e := by
  obtain ⟨e', hfind⟩ := exists_find? he hfits
  obtain ⟨he', hfits', hlongest⟩ := longest_of_find? hfind
  rcases h e' he' hfits' with rfl | hlt
  · exact hfind
  · exact absurd (hlongest e he hfits) (Nat.not_le.2 hlt)

/-- The first of the longest entries that fit a utility. -/
structure IsFirstLongest (t : Table) (utility : List Char) (e : Entry) : Prop where
  fits : e.fits utility = true
  exists_around : ∃ before after, t.entries = before ++ e :: after ∧
    (∀ e' ∈ before, e'.fits utility = true → e'.name.length < e.name.length) ∧
    ∀ e' ∈ after, e'.fits utility = true → e'.name.length ≤ e.name.length

private theorem foldl_longer_of_le {es : List Entry}
    (h : ∀ e' ∈ es, e'.name.utf8ByteSize ≤ e.name.utf8ByteSize) :
    es.foldl longer (some e) = some e := by
  induction es with
  | nil => rfl
  | cons x es ih =>
    obtain ⟨hx, hes⟩ := List.forall_mem_cons.1 h
    have hstep : longer (some e) x = some e := if_neg (Nat.not_lt.2 hx)
    rw [List.foldl_cons, hstep]
    exact ih hes

private theorem foldl_longer_append {before after : List Entry}
    (hbefore : ∀ e' ∈ before, e'.name.utf8ByteSize < e.name.utf8ByteSize)
    (hafter : ∀ e' ∈ after, e'.name.utf8ByteSize ≤ e.name.utf8ByteSize) :
    (before ++ e :: after).foldl longer none = some e := by
  have hstep : longer (before.foldl longer none) e = some e := by
    rcases exists_foldl_longer none before with ⟨-, rfl⟩ | ⟨b, hb, hmem, -⟩
    · rfl
    · rw [hb]
      exact if_pos (hbefore b (hmem.resolve_right (by simp)))
  rw [List.foldl_append, List.foldl_cons, hstep]
  exact foldl_longer_of_le hafter

/-- The longest entry is kept, and the first one at equal lengths. -/
theorem foldl_longer_eq_some_iff {es : List Entry} :
    es.foldl longer none = some e ↔ ∃ before after, es = before ++ e :: after ∧
      (∀ e' ∈ before, e'.name.utf8ByteSize < e.name.utf8ByteSize) ∧
      ∀ e' ∈ after, e'.name.utf8ByteSize ≤ e.name.utf8ByteSize := by
  constructor
  · intro h
    induction es using List.reverseRecOn generalizing e with
    | nil => cases h
    | append_singleton es x ih =>
      rw [List.foldl_append] at h
      rcases exists_foldl_longer none es with ⟨-, rfl⟩ | ⟨b, hb, -, hle, -⟩
      · obtain rfl : x = e := Option.some.inj h
        exact ⟨[], [], rfl, by simp, by simp⟩
      · rw [hb] at h
        by_cases hlonger : b.name.utf8ByteSize < x.name.utf8ByteSize
        · obtain rfl : x = e := Option.some.inj ((if_pos hlonger).symm.trans h)
          exact ⟨es, [], rfl, fun e' he' => (hle e' he').trans_lt hlonger, by simp⟩
        · obtain rfl : b = e := Option.some.inj ((if_neg hlonger).symm.trans h)
          obtain ⟨before, after, rfl, hbefore, hafter⟩ := ih hb
          refine ⟨before, after ++ [x], by simp, hbefore, ?_⟩
          intro e' he'
          rcases List.mem_append.1 he' with he' | he'
          · exact hafter e' he'
          · obtain rfl := List.mem_singleton.1 he'
            exact Nat.not_lt.1 hlonger
  · rintro ⟨before, after, rfl, hbefore, hafter⟩
    exact foldl_longer_append hbefore hafter

/-- The entry of a utility is the first of the longest ones that fit it. -/
theorem find?_eq_some_iff : t.find? utility = some e ↔ t.IsFirstLongest utility e := by
  have hle {e e' : Entry} (hfits : e.fits utility = true) (hfits' : e'.fits utility = true) :
      e'.name.utf8ByteSize ≤ e.name.utf8ByteSize ↔ e'.name.length ≤ e.name.length :=
    size_le_iff_of_isPrefix (Entry.prefix_of_fits hfits') (Entry.prefix_of_fits hfits)
  have hlt {e e' : Entry} (hfits : e.fits utility = true) (hfits' : e'.fits utility = true) :
      e'.name.utf8ByteSize < e.name.utf8ByteSize ↔ e'.name.length < e.name.length := by
    rw [← Nat.not_le, ← Nat.not_le, hle hfits' hfits]
  rw [find?, foldl_longer_eq_some_iff]
  constructor
  · rintro ⟨fitting, more, hfilter, hbefore, hafter⟩
    obtain ⟨before, tail, hentries, rfl, htail⟩ := List.filter_eq_append_iff.1 hfilter
    obtain ⟨skipped, after, rfl, hskipped, hfits, rfl⟩ := List.filter_eq_cons_iff.1 htail
    refine ⟨hfits, before ++ skipped, after, by simp [hentries], ?_, ?_⟩
    · intro e' he' hfits'
      rcases List.mem_append.1 he' with he' | he'
      · exact (hlt hfits hfits').1 (hbefore e' (List.mem_filter.2 ⟨he', hfits'⟩))
      · exact absurd hfits' (hskipped e' he')
    · intro e' he' hfits'
      exact (hle hfits hfits').1 (hafter e' (List.mem_filter.2 ⟨he', hfits'⟩))
  · rintro ⟨hfits, before, after, hentries, hbefore, hafter⟩
    refine ⟨before.filter (·.fits utility), after.filter (·.fits utility), ?_, ?_, ?_⟩
    · rw [hentries, List.filter_append, List.filter_cons_of_pos (by exact hfits)]
    · intro e' he'
      obtain ⟨he', hfits'⟩ := List.mem_filter.1 he'
      exact (hlt hfits hfits').2 (hbefore e' he' hfits')
    · intro e' he'
      obtain ⟨he', hfits'⟩ := List.mem_filter.1 he'
      exact (hle hfits hfits').2 (hafter e' he' hfits')

end Table

/-- The number of square brackets that are open behind a character. -/
def brackets (n : Nat) (c : Char) : Nat :=
  if c = '[' then n + 1 else if c = ']' then n - 1 else n

/-- The number of square brackets that are open behind some text. -/
def openBrackets (n : Nat) (cs : List Char) : Nat := cs.foldl brackets n

theorem colonLength_cons (n : Nat) (c : Char) (cs : List Char) :
    colonLength n (c :: cs) =
      if colonLength (brackets n c) cs = 0 then if c = ':' ∧ n = 0 then 1 else 0
      else colonLength (brackets n c) cs + 1 := by
  rw [colonLength, ← brackets]
  split <;> simp_all

theorem colonLength_append (n : Nat) (xs ys : List Char) :
    colonLength n (xs ++ ys) =
      if colonLength (openBrackets n xs) ys = 0 then colonLength n xs
      else xs.length + colonLength (openBrackets n xs) ys := by
  induction xs generalizing n with
  | nil =>
    rw [List.nil_append, List.length_nil, Nat.zero_add]
    split
    · assumption
    · rfl
  | cons x xs ih =>
    have hopen : openBrackets n (x :: xs) = openBrackets (brackets n x) xs := rfl
    rw [List.cons_append, colonLength_cons, ih, hopen]
    by_cases h : colonLength (openBrackets (brackets n x) xs) ys = 0
    · rw [if_pos h, if_pos h, colonLength_cons]
    · rw [if_neg h, if_neg h, if_neg (by omega), List.length_cons]
      omega

theorem colonLength_le (n : Nat) (cs : List Char) : colonLength n cs ≤ cs.length := by
  induction cs generalizing n with
  | nil => exact Nat.le_refl 0
  | cons c cs ih =>
    have := ih (brackets n c)
    rw [colonLength_cons, List.length_cons]
    split
    · split <;> omega
    · omega

/-- Text that has no part in where a class is cut. -/
def IsPlain (cs : List Char) : Prop := ∀ c ∈ cs, c ≠ '[' ∧ c ≠ ']' ∧ c ≠ ':' ∧ c ≠ '!'

theorem openBrackets_of_not_mem {cs : List Char} (hopen : '[' ∉ cs) (hclose : ']' ∉ cs) (n : Nat) :
    openBrackets n cs = n := by
  induction cs with
  | nil => rfl
  | cons c cs ih =>
    rw [List.mem_cons, not_or] at hopen hclose
    rw [openBrackets, List.foldl_cons, brackets, if_neg (Ne.symm hopen.1), if_neg (Ne.symm hclose.1)]
    exact ih hopen.2 hclose.2

private theorem openBrackets_of_isPlain {cs : List Char} (h : IsPlain cs) (n : Nat) :
    openBrackets n cs = n :=
  openBrackets_of_not_mem (fun hc => (h _ hc).1 rfl) (fun hc => (h _ hc).2.1 rfl) n

private theorem colonLength_of_isPlain {cs : List Char} (h : IsPlain cs) (n : Nat) :
    colonLength n cs = 0 := by
  induction cs generalizing n with
  | nil => rfl
  | cons c cs ih =>
    obtain ⟨⟨-, -, hcolon, -⟩, hcs⟩ := List.forall_mem_cons.1 h
    rw [colonLength_cons, if_pos (ih hcs _), if_neg (fun h => hcolon h.1)]

/-- No bracket is open behind the last colon outside brackets. -/
theorem take_colonLength (n : Nat) (cs : List Char) :
    colonLength n (cs.take (colonLength n cs)) = colonLength n cs ∧
      (colonLength n cs ≠ 0 → openBrackets n (cs.take (colonLength n cs)) = 0) := by
  induction cs generalizing n with
  | nil => exact ⟨rfl, fun h => absurd rfl h⟩
  | cons c cs ih =>
    obtain ⟨hlength, hopen⟩ := ih (brackets n c)
    by_cases h : colonLength (brackets n c) cs = 0
    · by_cases hc : c = ':' ∧ n = 0
      · obtain ⟨rfl, rfl⟩ := hc
        have hone : colonLength 0 (':' :: cs) = 1 := by
          rw [colonLength_cons, if_pos h]
          rfl
        rw [hone]
        exact ⟨rfl, fun _ => rfl⟩
      · have hzero : colonLength n (c :: cs) = 0 := by
          rw [colonLength_cons, if_pos h, if_neg hc]
        rw [hzero]
        exact ⟨rfl, fun h => absurd rfl h⟩
    · have hcons : colonLength n (c :: cs) = colonLength (brackets n c) cs + 1 := by
        rw [colonLength_cons, if_neg h]
      rw [hcons, List.take_succ_cons, colonLength_cons, hlength, if_neg h]
      exact ⟨rfl, fun _ => hopen h⟩

namespace Variants

/-- Variants and perhaps a mark of importance, in front of any utility. -/
structure IsLead (lead : List Char) : Prop where
  exists_outer : ∃ outer mark, lead = outer ++ mark ∧ (mark = [] ∨ mark = ['!']) ∧
    colonLength 0 outer = outer.length ∧ openBrackets 0 outer = 0

private theorem exists_split (text : List Char) :
    ∃ outer mark utility, text = outer ++ (mark ++ utility) ∧ (mark = [] ∨ mark = ['!']) ∧
      colonLength 0 outer = outer.length ∧ openBrackets 0 outer = 0 ∧
      split text = ⟨outer ++ mark, utility⟩ := by
  obtain ⟨hlength, hopen⟩ := take_colonLength 0 text
  have houter : (text.take (colonLength 0 text)).length = colonLength 0 text :=
    List.length_take_of_le (colonLength_le 0 text)
  have hclosed : openBrackets 0 (text.take (colonLength 0 text)) = 0 := by
    by_cases h : colonLength 0 text = 0
    · rw [h]
      rfl
    · exact hopen h
  unfold split
  dsimp only
  split
  · rename_i utility hdrop
    have htext : text = text.take (colonLength 0 text) ++ (['!'] ++ utility) := by
      rw [List.singleton_append, ← hdrop, List.take_append_drop]
    have htake : text.take (colonLength 0 text + 1) = text.take (colonLength 0 text) ++ ['!'] := by
      rw [List.take_add_one, ← List.head?_drop, hdrop]
      rfl
    exact ⟨_, ['!'], utility, htext, .inr rfl, hlength.trans houter.symm, hclosed, by rw [htake]⟩
  · exact ⟨_, [], _, (List.take_append_drop _ text).symm, .inl rfl, hlength.trans houter.symm,
      hclosed, by rw [List.append_nil]⟩

theorem isLead_split (text : List Char) : IsLead (split text).lead := by
  obtain ⟨outer, mark, utility, -, hmark, hlength, hopen, hsplit⟩ := exists_split text
  rw [hsplit]
  exact ⟨outer, mark, rfl, hmark, hlength, hopen⟩

/-- A lead in front of a utility without colons and marks of its own is found again. -/
theorem split_append {lead utility : List Char} (hlead : IsLead lead)
    (hcolon : colonLength 0 utility = 0) (hmark : utility.head? ≠ some '!') :
    split (lead ++ utility) = ⟨lead, utility⟩ := by
  obtain ⟨outer, mark, rfl, hmark', hlength, hopen⟩ := hlead.exists_outer
  have hinner : colonLength 0 (mark ++ utility) = 0 := by
    rcases hmark' with rfl | rfl
    · exact hcolon
    · rw [List.singleton_append, colonLength_cons]
      exact (if_pos hcolon).trans (if_neg (by simp))
  have htotal : colonLength 0 (outer ++ (mark ++ utility)) = outer.length := by
    rw [colonLength_append, hopen, if_pos hinner, hlength]
  rw [split, List.append_assoc, htotal, List.drop_left]
  rcases hmark' with rfl | rfl
  · rw [List.nil_append, List.append_nil]
    split
    · exact absurd rfl hmark
    · rw [List.take_left]
  · change (⟨(outer ++ '!' :: utility).take (outer.length + 1), utility⟩ : Variants) = _
    rw [List.take_length_add_append]
    rfl

end Variants

/-- What stands behind the last colon outside of square brackets: all of a text that has none. -/
def IsBehindVariants (text part : List Char) : Prop :=
  ∃ outer, text = outer ++ part ∧
    (outer = [] ∨ ∃ variants, outer = variants ++ [':'] ∧ openBrackets 0 variants = 0) ∧
    ∀ before after, text = before ++ ':' :: after → openBrackets 0 before = 0 →
      before.length < outer.length

/-- A text without the mark of importance that it may begin with. -/
def IsUnmarked (part utility : List Char) : Prop :=
  part = '!' :: utility ∨ part = utility ∧ utility.head? ≠ some '!'

theorem length_lt_colonLength {n : Nat} {before after : List Char}
    (h : openBrackets n before = 0) : before.length < colonLength n (before ++ ':' :: after) := by
  have hpos : 0 < colonLength 0 (':' :: after) := by
    rw [colonLength_cons]
    split
    · decide
    · exact Nat.succ_pos _
  rw [colonLength_append, h, if_neg (Nat.pos_iff_ne_zero.1 hpos)]
  omega

theorem colonLength_eq_zero_or (n : Nat) (cs : List Char) :
    colonLength n cs = 0 ∨ ∃ before after, cs = before ++ ':' :: after ∧
      openBrackets n before = 0 ∧ colonLength n cs = before.length + 1 := by
  induction cs generalizing n with
  | nil => exact .inl rfl
  | cons c cs ih =>
    rw [colonLength_cons]
    rcases ih (brackets n c) with hzero | ⟨before, after, rfl, hopen, hlength⟩
    · rw [if_pos hzero]
      split
      · rename_i hc
        obtain ⟨rfl, rfl⟩ := hc
        exact .inr ⟨[], cs, rfl, rfl, rfl⟩
      · exact .inl rfl
    · rw [hlength, if_neg (Nat.succ_ne_zero _)]
      exact .inr ⟨c :: before, after, rfl, hopen, rfl⟩

private theorem isBehindVariants_drop (text : List Char) :
    IsBehindVariants text (text.drop (colonLength 0 text)) := by
  refine ⟨text.take (colonLength 0 text), (List.take_append_drop _ text).symm, ?_, ?_⟩
  · rcases colonLength_eq_zero_or 0 text with hzero | ⟨before, after, htext, hopen, hlength⟩
    · left
      rw [hzero, List.take_zero]
    · right
      refine ⟨before, ?_, hopen⟩
      rw [hlength, htext, List.take_length_add_append]
      rfl
  · intro before after htext hopen
    rw [List.length_take_of_le (colonLength_le 0 text), htext]
    exact length_lt_colonLength hopen

private theorem IsBehindVariants.eq_drop {text part : List Char} (h : IsBehindVariants text part) :
    part = text.drop (colonLength 0 text) := by
  obtain ⟨outer, rfl, houter, hlast⟩ := h
  have hle : outer.length ≤ colonLength 0 (outer ++ part) := by
    rcases houter with rfl | ⟨variants, rfl, hopen⟩
    · exact Nat.zero_le _
    · have := @length_lt_colonLength 0 variants part hopen
      simpa [Nat.succ_le_iff] using this
  have hge : colonLength 0 (outer ++ part) ≤ outer.length := by
    rcases colonLength_eq_zero_or 0 (outer ++ part) with hzero | ⟨before, after, htext, hopen, hlength⟩
    · omega
    · have := hlast before after htext hopen
      omega
  rw [Nat.le_antisymm hge hle, List.drop_left]

namespace Variants

/-- A class applies what is behind its variants and its mark of importance. -/
theorem utility_split_eq_iff {text utility : List Char} :
    (split text).utility = utility ↔ ∃ part, IsBehindVariants text part ∧ IsUnmarked part utility := by
  have hpart (part : List Char) : IsBehindVariants text part ↔ part = text.drop (colonLength 0 text) :=
    ⟨IsBehindVariants.eq_drop, fun h => h ▸ isBehindVariants_drop text⟩
  simp only [hpart, exists_eq_left]
  unfold split
  dsimp only
  split
  · rename_i cs hdrop
    rw [hdrop]
    constructor
    · rintro rfl
      exact .inl rfl
    · rintro (hmark | ⟨rfl, hmark⟩)
      · exact (List.cons_eq_cons.1 hmark).2
      · exact absurd rfl hmark
  · rename_i hdrop
    constructor
    · rintro rfl
      refine .inr ⟨rfl, ?_⟩
      intro hmark
      obtain ⟨cs, hcs⟩ := List.head?_eq_some_iff.1 hmark
      exact hdrop cs hcs
    · rintro (hmark | ⟨rfl, -⟩)
      · exact absurd hmark (hdrop utility)
      · rfl

end Variants
/-- The stems of which what follows is looked up. -/
def checkedStems : List String := colorStems ++ spacingStems ++ (sizingStems ++ borderSideStems)

/-- The longer stems of this kind that a stem may be turned into. -/
def extensions (stem : String) : List String :=
  if stem = "border-" then borderSideStems
  else if stem = "gap-" then ["gap-x-", "gap-y-"]
  else []

theorem isPlain_of_mem_checkedStems {stem : String} (h : stem ∈ checkedStems) :
    IsPlain stem.toList := by
  have hall : (checkedStems.all fun stem => stem.toList.all fun c =>
      c ≠ '[' ∧ c ≠ ']' ∧ c ≠ ':' ∧ c ≠ '!') = true := by
    decide +kernel
  intro c hc
  simpa using List.all_eq_true.1 (List.all_eq_true.1 hall stem h) c hc

/-- A stem in front of a name without colons has no colon. -/
theorem colonLength_stem_append {stem : String} (hstem : stem ∈ checkedStems) (key : List Char)
    (hcolon : colonLength 0 key = 0) : colonLength 0 (stem.toList ++ key) = 0 := by
  have hplain := isPlain_of_mem_checkedStems hstem
  rw [colonLength_append, openBrackets_of_isPlain hplain, if_pos hcolon]
  exact colonLength_of_isPlain hplain 0

theorem head?_append_ne_mark {stem : String} (hstem : stem ∈ checkedStems) (key : List Char) :
    (stem.toList ++ key).head? ≠ some '!' := by
  cases hname : stem.toList with
  | nil =>
    rw [String.toList_eq_nil_iff.1 hname] at hstem
    exact absurd hstem (by decide)
  | cons c cs =>
    intro hc
    have hmem : c ∈ stem.toList := hname ▸ List.mem_cons_self
    exact (isPlain_of_mem_checkedStems hstem c hmem).2.2.2 (Option.some.inj hc)

theorem nodup_checkedStems : checkedStems.Nodup := by
  decide +kernel

theorem mem_extensions {stem other : String} (hstem : stem ∈ checkedStems)
    (hother : other ∈ checkedStems) (h : stem.toList <+: other.toList) :
    other = stem ∨ other ∈ extensions stem := by
  have hall : ∀ stem ∈ checkedStems, ∀ other ∈ checkedStems,
      stem.toList.isPrefixOf other.toList = true → other = stem ∨ other ∈ extensions stem := by
    decide +kernel
  exact hall stem hstem other hother (List.isPrefixOf_iff_prefix.2 h)

end DesignTokens.Utility
