import DesignTokens.Proofs.Script.QuotedText

/-! # What escapes and interpolations take in

An escape is decoded by the characters it takes in and by nothing behind them, and they neither end
a literal nor open an interpolation. An interpolation ends where its braces end by themselves. -/
namespace DesignTokens.Script

namespace Escape

/-- A search that finds what the characters in front spell, whatever comes behind them. -/
def Finds {α : Type} (f : List Char → Option α) (IsSpelling : α → List Char → Prop) : Prop :=
  ∀ cs a, f cs = some a ↔ ∃ xs rest, cs = xs ++ rest ∧ IsSpelling a xs

/-- Nothing else is found where the text ends behind the characters that were looked at. -/
theorem Finds.take {α : Type} {f : List Char → Option α} {IsSpelling : α → List Char → Prop}
    (hf : Finds f IsSpelling) {size : α → Nat}
    (hsize : ∀ a xs, IsSpelling a xs → xs.length = size a) {cs : List Char} {m : Nat}
    (hm : ∀ a, f cs = some a → size a ≤ m) : f (cs.take m) = f cs := by
  refine Option.ext fun a => ⟨fun h => ?_, fun h => ?_⟩
  · obtain ⟨xs, rest, hcs, hxs⟩ := (hf _ a).1 h
    refine (hf cs a).2 ⟨xs, rest ++ cs.drop m, ?_, hxs⟩
    rw [← List.append_assoc, ← hcs, List.take_append_drop]
  · have hle := hm a h
    obtain ⟨xs, rest, rfl, hxs⟩ := (hf cs a).1 h
    rw [← hsize a xs hxs] at hle
    refine (hf _ a).2 ⟨xs, rest.take (m - xs.length), ?_, hxs⟩
    rw [List.take_append, List.take_of_length_le hle]

/-- Hexadecimal digits and their number. -/
structure IsHex (count code : Nat) (ds : List Char) : Prop where
  length_eq : ds.length = count
  digits : ∀ d ∈ ds, isHexDigit d
  value_eq : hexValue ds = code

theorem finds_fixedHex? (count : Nat) : Finds (fixedHex? count) (IsHex count) := by
  intro cs code
  simp only [fixedHex?, Option.ite_none_right_eq_some, Option.some.injEq, List.all_eq_true]
  constructor
  · rintro ⟨⟨hlength, hdigits⟩, rfl⟩
    exact ⟨cs.take count, cs.drop count, (List.take_append_drop count cs).symm,
      hlength, hdigits, rfl⟩
  · rintro ⟨ds, rest, rfl, rfl, hdigits, rfl⟩
    rw [List.take_left]
    exact ⟨⟨rfl, hdigits⟩, rfl⟩

/-- The spellings of a low surrogate behind a high one. -/
inductive IsLow : Nat → List Char → Prop
  | intro {low : Nat} {ds : List Char} (h : IsHex 4 low ds) (hlow : isLowSurrogate low) :
      IsLow low ('\\' :: 'u' :: ds)

theorem finds_lowSurrogate? : Finds lowSurrogate? IsLow := by
  intro cs low
  constructor
  · intro h
    unfold lowSurrogate? at h
    split at h
    · obtain ⟨h, hlow⟩ := Option.filter_eq_some_iff.1 h
      obtain ⟨ds, rest, rfl, hds⟩ := (finds_fixedHex? 4 _ _).1 h
      exact ⟨_, rest, rfl, .intro hds hlow⟩
    · cases h
  · rintro ⟨xs, rest, rfl, hxs⟩
    cases hxs with
    | intro hds hlow =>
      exact Option.filter_eq_some_iff.2 ⟨(finds_fixedHex? 4 _ _).2 ⟨_, rest, rfl, hds⟩, hlow⟩

/-- The spellings of a code point behind the letter of its escape. -/
inductive IsCodePoint : Spelled → List Char → Prop
  | fixed {code : Nat} {ds : List Char} (h : IsHex 4 code ds) : IsCodePoint ⟨code, 4⟩ ds
  | braced {code count : Nat} {ds : List Char} (h : IsHex count code ds) (hne : ds ≠ [])
      (hle : code ≤ 0x10FFFF) : IsCodePoint ⟨code, count + 2⟩ ('\x7b' :: (ds ++ ['\x7d']))

private theorem ne_brace_of_isHexDigit {c : Char} (h : isHexDigit c) : c ≠ '\x7b' ∧ c ≠ '\x7d' := by
  constructor <;> rintro rfl <;> exact absurd h (by decide)

theorem braced?_eq_some_iff (cs : List Char) (spelled : Spelled) :
    braced? ('\x7b' :: cs) = some spelled ↔
      ∃ ds rest, cs = ds ++ '\x7d' :: rest ∧ IsHex ds.length spelled.code ds ∧ ds ≠ [] ∧
        spelled.code ≤ 0x10FFFF ∧ spelled.length = ds.length + 2 := by
  obtain ⟨code, length⟩ := spelled
  constructor
  · intro h
    simp only [braced?] at h
    split at h
    · rename_i d ds rest hdigits hbehind
      rw [hdigits] at hbehind
      obtain ⟨hle, hspelled⟩ := Option.ite_none_right_eq_some.1 h
      obtain ⟨rfl, rfl⟩ := Spelled.mk.inj (Option.some.inj hspelled)
      refine ⟨cs.takeWhile isHexDigit, rest, ?_, ⟨rfl, ?_, rfl⟩, by simp [hdigits], hle, rfl⟩
      · have hsplit := List.takeWhile_append_dropWhile (p := isHexDigit) (l := cs)
        rw [← drop_length_takeWhile, hdigits, hbehind] at hsplit
        rw [hdigits, hsplit]
      · exact fun d hd => List.mem_takeWhile_imp hd
    · cases h
  · rintro ⟨ds, rest, rfl, ⟨-, hdigits, rfl⟩, hne, hle, rfl⟩
    have hclose : isHexDigit '\x7d' = false := by decide
    have htake : (ds ++ '\x7d' :: rest).takeWhile isHexDigit = ds := by
      rw [List.takeWhile_append_of_pos hdigits, List.takeWhile_cons_of_neg (by simp [hclose]),
        List.append_nil]
    obtain ⟨d, ds, rfl⟩ := List.exists_cons_of_ne_nil hne
    rw [braced?, htake, List.drop_left, if_pos hle]
    rfl

theorem finds_codePoint? : Finds codePoint? IsCodePoint := by
  intro cs spelled
  by_cases hbrace : cs.head? = some '\x7b'
  · obtain ⟨cs, rfl⟩ := List.head?_eq_some_iff.1 hbrace
    rw [codePoint?, braced?_eq_some_iff]
    constructor
    · rintro ⟨ds, rest, rfl, hds, hne, hle, hlength⟩
      obtain ⟨code, length⟩ := spelled
      obtain rfl : length = ds.length + 2 := hlength
      exact ⟨_, rest, by simp, .braced hds hne hle⟩
    · rintro ⟨xs, rest, hcs, hxs⟩
      cases hxs with
      | fixed h =>
        obtain ⟨d, ds, rfl⟩ := List.exists_cons_of_ne_nil (List.ne_nil_of_length_pos
          (Nat.lt_of_lt_of_eq (by decide) h.length_eq.symm))
        obtain rfl := (List.cons.inj hcs).1
        exact absurd rfl (ne_brace_of_isHexDigit (h.digits _ List.mem_cons_self)).1
      | @braced code count ds h hne hle =>
        obtain rfl := h.length_eq
        refine ⟨ds, rest, ?_, h, hne, hle, rfl⟩
        simpa using hcs
  · have hfixed : codePoint? cs = (fixedHex? 4 cs).map fun code => ⟨code, 4⟩ := by
      rw [codePoint?]
      rintro rest rfl
      exact hbrace rfl
    rw [hfixed, Option.map_eq_some_iff]
    constructor
    · rintro ⟨code, hcode, rfl⟩
      obtain ⟨ds, rest, rfl, hds⟩ := (finds_fixedHex? 4 _ _).1 hcode
      exact ⟨ds, rest, rfl, .fixed hds⟩
    · rintro ⟨xs, rest, rfl, hxs⟩
      cases hxs with
      | fixed h => exact ⟨_, (finds_fixedHex? 4 _ _).2 ⟨_, rest, rfl, h⟩, rfl⟩
      | braced => exact absurd rfl hbrace

/-- What an escape takes in behind its letter. No character of it ends a literal or opens an
interpolation, unless it is hidden by a backslash. -/
inductive Passed : List Char → Prop
  | nil : Passed []
  | plain {c : Char} {cs : List Char} (hc : c ∉ marks) (h : Passed cs) : Passed (c :: cs)
  | escaped (c : Char) {cs : List Char} (h : Passed cs) : Passed ('\\' :: c :: cs)

theorem Passed.append_plain {xs ys : List Char} (hxs : ∀ x ∈ xs, x ∉ marks) (h : Passed ys) :
    Passed (xs ++ ys) := by
  induction xs with
  | nil => exact h
  | cons x xs ih =>
    rw [List.forall_mem_cons] at hxs
    exact .plain hxs.1 (ih hxs.2)

theorem IsHex.plain {count code : Nat} {ds : List Char} (h : IsHex count code ds) :
    ∀ d ∈ ds, d ∉ marks := by
  have hmarks : marks.all fun c => !isHexDigit c := by decide
  intro d hd hmark
  have hnone := List.all_eq_true.1 hmarks d hmark
  rw [h.digits d hd] at hnone
  cases hnone

theorem IsCodePoint.passed {spelled : Spelled} {xs ys : List Char} (h : IsCodePoint spelled xs)
    (hys : Passed ys) : Passed (xs ++ ys) := by
  cases h with
  | fixed h => exact hys.append_plain h.plain
  | braced h =>
    have hclose : Passed ('\x7d' :: ys) := .plain (by decide) hys
    have hinside := hclose.append_plain h.plain
    have htext : Passed ('\x7b' :: (_ ++ '\x7d' :: ys)) := .plain (by decide) hinside
    simpa using htext

theorem IsCodePoint.length_eq {spelled : Spelled} {xs : List Char} (h : IsCodePoint spelled xs) :
    xs.length = spelled.length := by
  cases h with
  | fixed h => exact h.length_eq
  | braced h => simp [h.length_eq]

theorem IsLow.length_eq {low : Nat} {xs : List Char} (h : IsLow low xs) : xs.length = 6 := by
  cases h with
  | intro h => simp [h.length_eq]

theorem IsLow.passed {low : Nat} {xs : List Char} (h : IsLow low xs) : Passed xs := by
  cases h with
  | intro h _ =>
    have hds := Passed.append_plain h.plain .nil
    rw [List.append_nil] at hds
    exact .escaped 'u' hds

/-- What a Unicode escape takes in. -/
theorem unicode?_eq_some {cs : List Char} {c : Char} {length : Nat}
    (h : unicode? cs = some (c, length)) :
    ∃ xs rest, cs = xs ++ rest ∧ xs.length = length ∧ Passed xs := by
  obtain ⟨spelled, hspelled, hchar⟩ := Option.map_eq_some_iff.1 h
  obtain ⟨xs, rest, rfl, hxs⟩ := (finds_codePoint? _ _).1 hspelled
  have hpassed : Passed (xs ++ []) := hxs.passed .nil
  rw [← hxs.length_eq, List.drop_left] at hchar
  split at hchar
  · rename_i low _ hlow
    obtain ⟨ys, rest, rfl, hys⟩ := (finds_lowSurrogate? _ _).1 hlow
    obtain ⟨rfl, rfl⟩ := Prod.mk.inj hchar
    refine ⟨xs ++ ys, rest, (List.append_assoc xs ys rest).symm, ?_, hxs.passed ?_⟩
    · rw [List.length_append, hys.length_eq]
    · exact hys.passed
  · obtain ⟨rfl, rfl⟩ := Prod.mk.inj hchar
    rw [List.append_nil] at hpassed
    exact ⟨xs, rest, rfl, rfl, hpassed⟩

theorem unicode?_take {cs : List Char} {m : Nat}
    (hm : ∀ c length, unicode? cs = some (c, length) → length ≤ m) :
    unicode? (cs.take m) = unicode? cs := by
  have hcode : codePoint? (cs.take m) = codePoint? cs := by
    refine finds_codePoint?.take (fun _ _ h => h.length_eq) fun spelled hspelled => ?_
    simp only [unicode?, hspelled, Option.map_some] at hm
    split at hm
    · exact Nat.le_of_add_right_le (hm _ _ rfl)
    · exact hm _ _ rfl
  rw [unicode?, unicode?, hcode]
  cases hspelled : codePoint? cs with
  | none => rfl
  | some spelled =>
    rw [Option.map_some, Option.map_some, List.drop_take]
    cases hhigh : isHighSurrogate spelled.code with
    | false => rfl
    | true =>
      have hlow : lowSurrogate? ((cs.drop spelled.length).take (m - spelled.length)) =
          lowSurrogate? (cs.drop spelled.length) := by
        refine finds_lowSurrogate?.take (fun _ _ h => h.length_eq) fun low hlow => ?_
        simp only [unicode?, hspelled, Option.map_some, hhigh, hlow] at hm
        have := hm _ _ rfl
        omega
      rw [hlow]

/-- An escape is decoded as it is where the text ends behind what it takes in. -/
theorem value_take {c : Char} {cs : List Char} {m : Nat} (hm : (value c cs).2 ≤ m) :
    value c (cs.take m) = value c cs := by
  unfold value at hm ⊢
  split
  case h_8 =>
    have hcode : fixedHex? 2 (cs.take m) = fixedHex? 2 cs := by
      refine (finds_fixedHex? 2).take (fun _ _ h => h.length_eq) fun code hcode => ?_
      simpa [hcode] using hm
    rw [hcode]
  case h_9 =>
    have hchar : unicode? (cs.take m) = unicode? cs := by
      refine unicode?_take fun char length hchar => ?_
      simpa [hchar] using hm
    rw [hchar]
  all_goals rfl

/-- What an escape takes in behind its letter. -/
theorem exists_passed (c : Char) (cs : List Char) :
    ∃ xs rest, cs = xs ++ rest ∧ xs.length = (value c cs).2 ∧ Passed xs := by
  have hnothing : ∃ xs rest, cs = xs ++ rest ∧ xs.length = 0 ∧ Passed xs := ⟨[], cs, rfl, rfl, .nil⟩
  unfold value
  split
  case h_8 =>
    split
    · rename_i code hcode
      obtain ⟨ds, rest, rfl, hds⟩ := (finds_fixedHex? 2 _ _).1 hcode
      have hpassed : Passed (ds ++ []) := .append_plain hds.plain .nil
      rw [List.append_nil] at hpassed
      exact ⟨ds, rest, rfl, hds.length_eq, hpassed⟩
    · exact hnothing
  case h_9 =>
    split
    · rename_i char length hchar
      exact unicode?_eq_some hchar
    · exact hnothing
  all_goals exact hnothing

end Escape

namespace Extent

/-- A frame of text, in which a backslash hides the next character. -/
def Frame.IsText (f : Frame) : Prop := f = .template ∨ ∃ quote ∈ quotes, f = .quoted quote

section
variable {f : Frame} (hf : f.IsText) (frames : List Frame)
include hf

private theorem ofFrames_unmarked {c : Char} (hc : c ∉ marks) (cs : List Char) :
    ofFrames (f :: frames) (c :: cs) = (ofFrames (f :: frames) cs).more 1 := by
  have hother : c ≠ '`' ∧ c ≠ '\\' ∧ c ≠ '\n' ∧ c ≠ '$' := by
    simp only [marks, quotes, List.mem_append, List.mem_cons, not_or] at hc
    exact ⟨hc.1.2.2.1, hc.2.1, hc.2.2.1, hc.2.2.2.1⟩
  rcases hf with rfl | ⟨quote, hquote, rfl⟩
  · exact ofFrames_static _ _ hother.2.1 hother.1 fun hd => absurd hd hother.2.2.2
  · refine ofFrames_plain _ _ _ ?_ hother.2.2.1 hother.2.1
    rintro rfl
    exact hc (List.mem_append_left _ hquote)

private theorem ofFrames_hidden (c : Char) (cs : List Char) :
    ofFrames (f :: frames) ('\\' :: c :: cs) = (ofFrames (f :: frames) cs).more 2 := by
  rcases hf with rfl | ⟨quote, hquote, rfl⟩
  · exact ofFrames_templateEscaped _ _ _
  · refine ofFrames_escaped _ _ _ _ ?_
    rintro rfl
    exact absurd hquote (by decide)

/-- What an escape takes in ends no literal. -/
theorem ofFrames_passed {xs : List Char} (h : Escape.Passed xs) (cs : List Char) :
    ofFrames (f :: frames) (xs ++ cs) = (ofFrames (f :: frames) cs).more xs.length := by
  induction h with
  | nil => exact (congrArg (Extent.mk _) (Nat.zero_add _)).symm
  | @plain c xs hc h ih =>
    rw [List.cons_append, ofFrames_unmarked hf frames hc, ih, more_more, Nat.add_comm]
    rfl
  | @escaped c xs h ih =>
    rw [List.cons_append, List.cons_append, ofFrames_hidden hf frames, ih, more_more, Nat.add_comm]
    rfl

end

/-- The extent of what encloses a text whose own extent is known. -/
def andThen (e : Extent) (cs : List Char) (outer : List Char → Extent) : Extent :=
  if e.closed then (outer (cs.drop e.length)).more e.length else e

theorem andThen_more (e : Extent) (xs cs : List Char) (outer : List Char → Extent) :
    (e.more xs.length).andThen (xs ++ cs) outer = (e.andThen cs outer).more xs.length := by
  have hclosed : (e.more xs.length).closed = e.closed := rfl
  rw [andThen, andThen, hclosed, length_more, ← List.drop_drop, List.drop_left, ← more_more]
  cases e.closed <;> rfl

private theorem enter_append (frames others : List Frame) (c : Char) :
    Frame.enter frames c ++ others = Frame.enter (frames ++ others) c := by
  unfold Frame.enter
  split <;> rfl

/-- Where all frames are left, those around them go on. -/
theorem ofFrames_append (frames others : List Frame) (cs : List Char) :
    ofFrames (frames ++ others) cs = (ofFrames frames cs).andThen cs (ofFrames others) := by
  induction frames, cs using ofFrames.induct with
  | case1 cs =>
    rw [ofFrames_nil]
    exact (congrArg (Extent.mk _) (Nat.zero_add _)).symm
  | case2 frame frames =>
    rw [List.cons_append, ofFrames, ofFrames]
    rfl
  | case3 frames c cs ih =>
    rw [List.cons_append, ofFrames_code, ofFrames_code, ← enter_append, ih]
    exact (andThen_more _ [c] cs _).symm
  | case4 frames quote cs ih =>
    rw [List.cons_append, ofFrames_quote, ofFrames_quote, ih]
    exact (andThen_more _ [quote] cs _).symm
  | case5 quote frames cs hq =>
    rw [List.cons_append, ofFrames_lineEnd _ _ _ hq, ofFrames_lineEnd _ _ _ hq]
    rfl
  | case6 quote frames hq hb =>
    have hopen (frames : List Frame) : ofFrames (.quoted quote :: frames) ['\\'] = ⟨false, 1⟩ := by
      rw [ofFrames.eq_def]
      simp [hq]
    rw [List.cons_append, hopen, hopen]
    rfl
  | case7 quote frames c cs hq hb ih =>
    rw [List.cons_append] at ih ⊢
    rw [ofFrames_escaped _ _ _ _ hq, ofFrames_escaped _ _ _ _ hq, ih]
    exact (andThen_more _ ['\\', c] cs _).symm
  | case8 quote frames c cs hq hn hb ih =>
    rw [List.cons_append] at ih ⊢
    rw [ofFrames_plain _ _ _ hq hn hb, ofFrames_plain _ _ _ hq hn hb, ih]
    exact (andThen_more _ [c] cs _).symm
  | case9 frames =>
    rw [List.cons_append, ofFrames, ofFrames]
    rfl
  | case10 frames c cs ih =>
    rw [List.cons_append] at ih ⊢
    rw [ofFrames_templateEscaped, ofFrames_templateEscaped, ih]
    exact (andThen_more _ ['\\', c] cs _).symm
  | case11 frames cs ih =>
    rw [List.cons_append, List.cons_append] at ih
    rw [List.cons_append, ofFrames_interpolation, ofFrames_interpolation, ih]
    exact (andThen_more _ ['$', '\x7b'] cs _).symm
  | case12 frames cs _ _ _ ih =>
    rw [List.cons_append, ofFrames_backtick, ofFrames_backtick, ih]
    exact (andThen_more _ ['`'] cs _).symm
  | case13 frames c cs hend hesc hcode ht ih =>
    have hb : c ≠ '\\' := by
      intro hb
      cases cs with
      | nil => exact hend hb rfl
      | cons d cs => exact hesc d cs hb rfl
    have hd : c = '$' → cs.head? ≠ some '\x7b' := by
      intro hc hhead
      obtain ⟨rest, rfl⟩ := List.head?_eq_some_iff.1 hhead
      exact hcode rest hc rfl
    rw [List.cons_append] at ih ⊢
    rw [ofFrames_static _ _ hb ht hd, ofFrames_static _ _ hb ht hd, ih]
    exact (andThen_more _ [c] cs _).symm

theorem interpolates_static {c : Char} {cs : List Char} (hb : c ≠ '\\')
    (hd : c = '$' → cs.head? ≠ some '\x7b') : interpolates (c :: cs) = interpolates cs := by
  rw [interpolates]
  · exact fun d ds hc => absurd hc hb
  · rintro ds rfl rfl
    exact hd rfl rfl

/-- What an escape takes in opens no interpolation. -/
theorem interpolates_passed {xs : List Char} (h : Escape.Passed xs) (cs : List Char) :
    interpolates (xs ++ cs) = interpolates cs := by
  induction h with
  | nil => rfl
  | @plain c xs hc h ih =>
    have hother : c ≠ '\\' ∧ c ≠ '$' := by
      constructor <;> rintro rfl <;> exact hc (by decide)
    rw [List.cons_append, interpolates_static hother.1 fun hd => absurd hd hother.2, ih]
  | escaped c h ih => rwa [List.cons_append, List.cons_append, interpolates]

/-- What a literal holds between its ends. -/
def body (e : Extent) (cs : List Char) : List Char := cs.take (e.length - 1)

theorem body_more {e : Extent} (h : 0 < e.length) (xs cs : List Char) :
    (e.more xs.length).body (xs ++ cs) = xs ++ e.body cs := by
  have hlength : xs.length + e.length - 1 = xs.length + (e.length - 1) := by omega
  rw [body, body, length_more, hlength, List.take_length_add_append]

theorem pos_of_closed {f : Frame} {frames : List Frame} {cs : List Char}
    (h : (ofFrames (f :: frames) cs).closed) : 0 < (ofFrames (f :: frames) cs).length := by
  cases cs with
  | nil =>
    rw [ofFrames] at h
    cases h
  | cons c cs => exact length_ofFrames_pos f frames c cs

end Extent

end DesignTokens.Script
