import DesignTokens.Proofs.Text
import DesignTokens.Script.Lexer
import Mathlib.Tactic.ByContra

/-! # How far tokens reach

A token reaches no further than the text, and it stays what it is whatever comes behind it, as long
as a blank comes first. Only a literal that the text ends in the middle of goes on over blanks. -/
namespace DesignTokens.Script
open Text (isBlank of_isBlank)

theorem ne_of_isBlank {w c : Char} (hw : isBlank w) (hc : isBlank c = false) : w ≠ c := by
  rintro rfl
  rw [hw] at hc
  cases hc

private theorem isIdentifierPart_of_isBlank {w : Char} (hw : isBlank w) :
    isIdentifierPart w = false := by
  have := of_isBlank (p := fun c => !isIdentifierPart c) (by decide +kernel) hw
  simpa using this

private theorem isAlphanum_of_isBlank {w : Char} (hw : isBlank w) : w.isAlphanum = false := by
  have := of_isBlank (p := fun c => !c.isAlphanum) (by decide) hw
  simpa using this

private theorem isAlpha_of_isBlank {w : Char} (hw : isBlank w) : w.isAlpha = false :=
  (Bool.or_eq_false_iff.1 (isAlphanum_of_isBlank hw)).1

private theorem isDigit_of_isBlank {w : Char} (hw : isBlank w) : w.isDigit = false :=
  (Bool.or_eq_false_iff.1 (isAlphanum_of_isBlank hw)).2

namespace Extent

theorem length_more (n : Nat) (e : Extent) : (e.more n).length = n + e.length := rfl

theorem more_more (m n : Nat) (e : Extent) : (e.more n).more m = e.more (m + n) :=
  congrArg (Extent.mk e.closed) (Nat.add_assoc m n e.length).symm

section
variable (quote : Char) (frames : List Frame) (c : Char) (cs : List Char)
attribute [local simp] ofFrames ofRegex ofBlockComment

theorem ofFrames_nil : ofFrames [] cs = ⟨true, 0⟩ := by
  simp

theorem ofFrames_code :
    ofFrames (.code :: frames) (c :: cs) = (ofFrames (Frame.enter frames c) cs).more 1 := by
  simp

theorem ofFrames_quote :
    ofFrames (.quoted quote :: frames) (quote :: cs) = (ofFrames frames cs).more 1 := by
  rw [ofFrames.eq_def]
  simp

theorem ofFrames_lineEnd (hq : '\n' ≠ quote) :
    ofFrames (.quoted quote :: frames) ('\n' :: cs) = ⟨false, 1⟩ := by
  rw [ofFrames.eq_def]
  simp [hq]

theorem ofFrames_escaped (hq : '\\' ≠ quote) :
    ofFrames (.quoted quote :: frames) ('\\' :: c :: cs) =
      (ofFrames (.quoted quote :: frames) cs).more 2 := by
  simp [hq]

variable {c} in
theorem ofFrames_plain (hq : c ≠ quote) (hn : c ≠ '\n') (hb : c ≠ '\\') :
    ofFrames (.quoted quote :: frames) (c :: cs) =
      (ofFrames (.quoted quote :: frames) cs).more 1 := by
  rw [ofFrames.eq_def]
  simp [hq, hn, hb]

theorem ofFrames_backtick :
    ofFrames (.template :: frames) ('`' :: cs) = (ofFrames frames cs).more 1 := by
  simp

theorem ofFrames_templateEscaped :
    ofFrames (.template :: frames) ('\\' :: c :: cs) =
      (ofFrames (.template :: frames) cs).more 2 := by
  simp

theorem ofFrames_interpolation :
    ofFrames (.template :: frames) ('$' :: '\x7b' :: cs) =
      (ofFrames (.code :: .template :: frames) cs).more 2 := by
  simp

variable {c} in
theorem ofFrames_static (hb : c ≠ '\\') (ht : c ≠ '`') (hd : c = '$' → cs.head? ≠ some '\x7b') :
    ofFrames (.template :: frames) (c :: cs) = (ofFrames (.template :: frames) cs).more 1 := by
  rw [ofFrames]
  · rw [if_neg ht]
  · simp [hb]
  · simp [hb]
  · rintro rest rfl rfl
    exact hd rfl rfl

variable {c} in
theorem ofRegex_cons (hb : c ≠ '\\') (inClass : Bool) :
    ofRegex inClass (c :: cs) =
      if c = '[' then (ofRegex true cs).more 1
      else if c = ']' then (ofRegex false cs).more 1
      else if c = '/' ∧ inClass = false then ⟨true, 1⟩
      else if c = '\n' then ⟨false, 1⟩
      else (ofRegex inClass cs).more 1 := by
  simp [hb]

theorem ofRegex_escaped (inClass : Bool) :
    ofRegex inClass ('\\' :: c :: cs) = (ofRegex inClass cs).more 2 := by
  simp

variable {c} in
theorem ofBlockComment_cons (h : c = '*' → cs.head? ≠ some '/') :
    ofBlockComment (c :: cs) = (ofBlockComment cs).more 1 := by
  rw [ofBlockComment]
  rintro rest rfl rfl
  exact h rfl rfl

end

theorem length_ofFrames_le (frames : List Frame) (cs : List Char) :
    (ofFrames frames cs).length ≤ cs.length := by
  fun_induction ofFrames frames cs <;> simp_all [length_more] <;> omega

private theorem length_ofRegex_le (inClass : Bool) (cs : List Char) :
    (ofRegex inClass cs).length ≤ cs.length := by
  fun_induction ofRegex inClass cs
  all_goals simp_all [length_more]
  all_goals omega

theorem length_ofBlockComment_le (cs : List Char) :
    (ofBlockComment cs).length ≤ cs.length := by
  fun_induction ofBlockComment cs with
  | case1 => exact Nat.le_refl 0
  | case2 rest => exact Nat.le_add_left 2 rest.length
  | case3 c cs hne ih =>
    rw [length_more, List.length_cons]
    omega

theorem length_ofFrames_pos (frame : Frame) (frames : List Frame) (c : Char) (cs : List Char) :
    0 < (ofFrames (frame :: frames) (c :: cs)).length := by
  rw [ofFrames.eq_def]
  grind [more]

theorem length_ofRegex_pos (inClass : Bool) (c : Char) (cs : List Char) :
    0 < (ofRegex inClass (c :: cs)).length := by
  rw [ofRegex.eq_def]
  grind [more]

private theorem length_ofBlockComment_pos (c : Char) (cs : List Char) :
    0 < (ofBlockComment (c :: cs)).length := by
  rw [ofBlockComment.eq_def]
  grind [more]

/-- A literal ends before the text behind its opening character does. -/
def EndsIn (e : Extent) (cs : List Char) : Prop := e.closed ∨ e.length < cs.length

/-- The end of a literal is looked for no further than there, and no blanks close it. -/
structure EndsLocally (e : List Char → Extent) (cs : List Char) : Prop where
  take_append {n : Nat} (us : List Char) (hn : (e cs).length ≤ n) (hend : (e cs).EndsIn cs) :
    e (cs.take n ++ us) = e cs
  closed_of_blank {ws : List Char} (hw : ∀ w ∈ ws, isBlank w) (h : (e (cs ++ ws)).closed) :
    (e cs).closed

namespace EndsLocally
variable {e e' : List Char → Extent} {cs : List Char}

/-- The literal ends behind these characters. -/
theorem stop (xs : List Char) (closed : Bool) (h : ∀ ys, e (xs ++ ys) = ⟨closed, xs.length⟩) :
    EndsLocally e (xs ++ cs) where
  take_append {n} us hn _ := by
    rw [h] at hn
    rw [List.take_append, List.take_of_length_le hn, List.append_assoc, h, h]
  closed_of_blank {ws} _ hclosed := by
    rw [List.append_assoc, h] at hclosed
    rwa [h]

/-- The text ends before the literal does. -/
theorem unclosed (h : e cs = ⟨false, cs.length⟩)
    (hw : ∀ w ws, isBlank w → (∀ v ∈ ws, isBlank v) → (e (cs ++ w :: ws)).closed = false) :
    EndsLocally e cs where
  take_append {n} us _ hend := by
    rw [h] at hend
    rcases hend with hclosed | hlt
    · cases hclosed
    · exact absurd hlt (Nat.lt_irrefl _)
  closed_of_blank {ws} hblank hclosed := by
    cases ws with
    | nil => rwa [List.append_nil] at hclosed
    | cons w ws =>
      rw [List.forall_mem_cons] at hblank
      rw [hw w ws hblank.1 hblank.2] at hclosed
      cases hclosed

/-- The literal goes on behind these characters. What it is may depend on the next one. -/
theorem step (xs : List Char) (h : EndsLocally e' cs)
    (hstep : ∀ ys, (cs ≠ [] → 0 < (e' cs).length → ys.head? = cs.head?) →
      e (xs ++ ys) = (e' ys).more xs.length) : EndsLocally e (xs ++ cs) where
  take_append {n} us hn hend := by
    have hcs := hstep cs fun _ _ => rfl
    rw [hcs, length_more] at hn
    have hends : (e' cs).EndsIn cs := by
      refine hend.imp (fun hclosed => ?_) fun hlt => ?_
      · rwa [hcs] at hclosed
      · rw [hcs, length_more, List.length_append] at hlt
        omega
    have hhead (hne : cs ≠ []) (hpos : 0 < (e' cs).length) :
        (cs.take (n - xs.length) ++ us).head? = cs.head? := by
      obtain ⟨c, cs, rfl⟩ := List.exists_cons_of_ne_nil hne
      obtain ⟨m, hm⟩ := Nat.exists_eq_add_of_lt (show 0 < n - xs.length by omega)
      rw [hm, Nat.zero_add]
      rfl
    rw [List.take_append, List.take_of_length_le (by omega), List.append_assoc, hstep _ hhead,
      h.take_append us (by omega) hends, hcs]
  closed_of_blank {ws} hw hclosed := by
    have hhead (hne : cs ≠ []) (_ : 0 < (e' cs).length) : (cs ++ ws).head? = cs.head? := by
      obtain ⟨c, cs, rfl⟩ := List.exists_cons_of_ne_nil hne
      rfl
    rw [List.append_assoc, hstep _ hhead] at hclosed
    rw [hstep cs fun _ _ => rfl]
    exact h.closed_of_blank hw hclosed

end EndsLocally

/-- A frame that no blank leaves. -/
def Frame.HoldsBlanks : Frame → Prop
  | .quoted quote => isBlank quote = false
  | _ => True

theorem Frame.enter_blank {w : Char} (hw : isBlank w) (frames : List Frame) :
    enter frames w = .code :: frames := by
  unfold enter
  split
  case h_6 => rfl
  all_goals exact absurd hw (by decide)

theorem Frame.holdsBlanks_enter {frames : List Frame} (h : ∀ f ∈ frames, f.HoldsBlanks)
    (c : Char) : ∀ f ∈ enter frames c, f.HoldsBlanks := by
  have hsame : ∀ f ∈ Frame.code :: frames, f.HoldsBlanks := List.forall_mem_cons.2 ⟨trivial, h⟩
  have hmore {f : Frame} (hf : f.HoldsBlanks) : ∀ g ∈ f :: .code :: frames, g.HoldsBlanks :=
    List.forall_mem_cons.2 ⟨hf, hsame⟩
  unfold enter
  split
  · exact hmore trivial
  · exact h
  · exact hmore (f := .quoted '"') rfl
  · exact hmore (f := .quoted '\'') rfl
  · exact hmore trivial
  · exact hsame

/-- Blanks close nothing. -/
theorem closed_ofFrames_blanks (frame : Frame) (hf : frame.HoldsBlanks) (frames : List Frame)
    {ws : List Char} (hw : ∀ w ∈ ws, isBlank w) :
    (ofFrames (frame :: frames) ws).closed = false := by
  induction ws with
  | nil => rw [ofFrames]
  | cons w ws ih =>
    rw [List.forall_mem_cons] at hw
    cases frame with
    | code =>
      rw [ofFrames_code, Frame.enter_blank hw.1]
      exact ih hw.2
    | quoted quote =>
      by_cases hline : w = '\n'
      · subst hline
        rw [ofFrames_lineEnd _ _ _ (ne_of_isBlank hw.1 hf)]
      · rw [ofFrames_plain _ _ _ (ne_of_isBlank hw.1 hf) hline (ne_of_isBlank hw.1 (by decide))]
        exact ih hw.2
    | template =>
      rw [ofFrames_static _ _ (ne_of_isBlank hw.1 (by decide)) (ne_of_isBlank hw.1 (by decide))
        fun h => absurd h (ne_of_isBlank hw.1 (by decide))]
      exact ih hw.2

/-- What follows a text in which the frames are open, up to the frames that are left there. -/
theorem endsLocally_ofFrames {frames : List Frame} (hf : ∀ f ∈ frames, f.HoldsBlanks)
    (cs : List Char) : EndsLocally (ofFrames frames) cs := by
  induction frames, cs using ofFrames.induct with
  | case1 cs => exact .stop [] true fun ys => ofFrames_nil ys
  | case2 frame frames =>
    refine .unclosed (by rw [ofFrames]; rfl) fun w ws hw hws => ?_
    exact closed_ofFrames_blanks _ (hf _ List.mem_cons_self) _ (List.forall_mem_cons.2 ⟨hw, hws⟩)
  | case3 frames c cs ih =>
    rw [List.forall_mem_cons] at hf
    refine .step [c] (ih (Frame.holdsBlanks_enter hf.2 c)) fun ys _ => ?_
    exact ofFrames_code frames c ys
  | case4 frames quote cs ih =>
    rw [List.forall_mem_cons] at hf
    exact .step [quote] (ih hf.2) fun ys _ => ofFrames_quote quote frames ys
  | case5 quote frames cs hq =>
    exact .stop ['\n'] false fun ys => ofFrames_lineEnd quote frames ys hq
  | case6 quote frames hq _ =>
    refine .unclosed (by rw [ofFrames.eq_def]; simp [hq]) fun w ws hw hws => ?_
    rw [List.singleton_append, ofFrames_escaped _ _ _ _ hq]
    exact closed_ofFrames_blanks _ (hf _ List.mem_cons_self) _ hws
  | case7 quote frames c cs hq _ ih =>
    exact .step ['\\', c] (ih hf) fun ys _ => ofFrames_escaped quote frames c ys hq
  | case8 quote frames c cs hq hn hb ih =>
    exact .step [c] (ih hf) fun ys _ => ofFrames_plain quote frames ys hq hn hb
  | case9 frames =>
    refine .unclosed (by rw [ofFrames]; rfl) fun w ws hw hws => ?_
    rw [List.singleton_append, ofFrames_templateEscaped]
    exact closed_ofFrames_blanks _ (hf _ List.mem_cons_self) _ hws
  | case10 frames c cs ih =>
    exact .step ['\\', c] (ih hf) fun ys _ => ofFrames_templateEscaped frames c ys
  | case11 frames cs ih =>
    refine .step ['$', '\x7b'] (ih ?_) fun ys _ => ofFrames_interpolation frames ys
    exact List.forall_mem_cons.2 ⟨trivial, hf⟩
  | case12 frames cs _ _ _ ih =>
    rw [List.forall_mem_cons] at hf
    exact .step ['`'] (ih hf.2) fun ys _ => ofFrames_backtick frames ys
  | case13 frames c cs hend hesc hcode ht ih =>
    have hb : c ≠ '\\' := by
      intro hb
      cases cs with
      | nil => exact hend hb rfl
      | cons d cs => exact hesc d cs hb rfl
    cases cs with
    | nil =>
      have hopen : ofFrames (.template :: frames) [c] = ⟨false, 1⟩ := by
        rw [ofFrames_static _ _ hb ht (by simp), ofFrames]
        rfl
      refine .unclosed hopen fun w ws hw hws => ?_
      have hstatic : c = '$' → (w :: ws).head? ≠ some '\x7b' := by
        intro _ hbrace
        exact ne_of_isBlank hw (by decide) (Option.some.inj hbrace)
      rw [List.singleton_append, ofFrames_static _ _ hb ht hstatic]
      exact closed_ofFrames_blanks .template trivial _
        (List.forall_mem_cons.2 ⟨hw, hws⟩)
    | cons d cs =>
      refine .step [c] (ih hf) fun ys hhead => ofFrames_static _ ys hb ht fun hd => ?_
      rw [hhead (by simp) (length_ofFrames_pos _ _ _ _)]
      rintro hbrace
      obtain rfl : d = '\x7b' := Option.some.inj hbrace
      exact hcode cs hd rfl

theorem closed_ofRegex_blanks (inClass : Bool) {ws : List Char} (hw : ∀ w ∈ ws, isBlank w) :
    (ofRegex inClass ws).closed = false := by
  induction ws with
  | nil => rw [ofRegex]
  | cons w ws ih =>
    rw [List.forall_mem_cons] at hw
    have hslash : ¬(w = '/' ∧ inClass = false) := fun h => ne_of_isBlank hw.1 (by decide) h.1
    rw [ofRegex_cons _ (ne_of_isBlank hw.1 (by decide)), if_neg (ne_of_isBlank hw.1 (by decide)),
      if_neg (ne_of_isBlank hw.1 (by decide)), if_neg hslash]
    split
    · rfl
    · exact ih hw.2

private theorem endsLocally_ofRegex (inClass : Bool) (cs : List Char) :
    EndsLocally (ofRegex inClass) cs := by
  induction inClass, cs using ofRegex.induct with
  | case1 inClass =>
    refine .unclosed (by rw [ofRegex]; rfl) fun w ws hw hws => ?_
    exact closed_ofRegex_blanks _ (List.forall_mem_cons.2 ⟨hw, hws⟩)
  | case2 inClass =>
    refine .unclosed (by rw [ofRegex]; rfl) fun w ws hw hws => ?_
    rw [List.singleton_append, ofRegex_escaped]
    exact closed_ofRegex_blanks _ hws
  | case3 inClass c cs ih =>
    exact .step ['\\', c] ih fun ys _ => ofRegex_escaped c ys inClass
  | case4 inClass cs _ _ ih =>
    refine .step ['['] ih fun ys _ => ?_
    rw [List.singleton_append, ofRegex_cons _ (by decide), if_pos rfl]
    rfl
  | case5 inClass cs _ _ _ ih =>
    refine .step [']'] ih fun ys _ => ?_
    rw [List.singleton_append, ofRegex_cons _ (by decide), if_neg (by decide), if_pos rfl]
    rfl
  | case6 inClass c cs _ _ ho hc hs =>
    obtain ⟨rfl, rfl⟩ := hs
    refine .stop ['/'] true fun ys => ?_
    rw [List.singleton_append, ofRegex_cons _ (by decide), if_neg ho, if_neg hc, if_pos ⟨rfl, rfl⟩]
    rfl
  | case7 inClass cs _ _ ho hc hs =>
    refine .stop ['\n'] false fun ys => ?_
    rw [List.singleton_append, ofRegex_cons _ (by decide), if_neg ho, if_neg hc, if_neg hs,
      if_pos rfl]
    rfl
  | case8 inClass c cs hend hesc ho hc hs hn ih =>
    have hb : c ≠ '\\' := by
      intro hb
      cases cs with
      | nil => exact hend hb rfl
      | cons d cs => exact hesc d cs hb rfl
    refine .step [c] ih fun ys _ => ?_
    rw [List.singleton_append, ofRegex_cons _ hb, if_neg ho, if_neg hc, if_neg hs, if_neg hn]
    rfl

theorem closed_ofBlockComment_blanks {ws : List Char} (hw : ∀ w ∈ ws, isBlank w) :
    (ofBlockComment ws).closed = false := by
  induction ws with
  | nil => rw [ofBlockComment]
  | cons w ws ih =>
    rw [List.forall_mem_cons] at hw
    rw [ofBlockComment_cons _ fun h => absurd h (ne_of_isBlank hw.1 (by decide))]
    exact ih hw.2

private theorem endsLocally_ofBlockComment (cs : List Char) : EndsLocally ofBlockComment cs := by
  induction cs using ofBlockComment.induct with
  | case1 =>
    refine .unclosed (by rw [ofBlockComment]; rfl) fun w ws hw hws => ?_
    exact closed_ofBlockComment_blanks (List.forall_mem_cons.2 ⟨hw, hws⟩)
  | case2 cs => exact .stop ['*', '/'] true fun ys => rfl
  | case3 c cs hne ih =>
    cases cs with
    | nil =>
      have hopen : ofBlockComment [c] = ⟨false, 1⟩ := by
        rw [ofBlockComment_cons _ (by simp), ofBlockComment]
        rfl
      refine .unclosed hopen fun w ws hw hws => ?_
      have hopener : c = '*' → (w :: ws).head? ≠ some '/' := by
        intro _ hslash
        exact ne_of_isBlank hw (by decide) (Option.some.inj hslash)
      rw [List.singleton_append, ofBlockComment_cons _ hopener]
      exact closed_ofBlockComment_blanks (List.forall_mem_cons.2 ⟨hw, hws⟩)
    | cons d cs =>
      refine .step [c] ih fun ys hhead => ofBlockComment_cons ys fun hc => ?_
      rw [hhead (by simp) (length_ofBlockComment_pos _ _)]
      intro hslash
      obtain rfl : d = '/' := Option.some.inj hslash
      exact hne cs hc rfl

/-- A literal that no blanks close goes on over them. -/
theorem EndsLocally.length_le_append {e : List Char → Extent} {cs ws : List Char}
    (h : EndsLocally e (cs ++ ws)) (hle : (e cs).length ≤ cs.length) :
    (e cs).length ≤ (e (cs ++ ws)).length := by
  by_contra hlt
  have hends : (e (cs ++ ws)).EndsIn (cs ++ ws) := by
    right
    rw [List.length_append]
    omega
  have hcs := h.take_append [] (n := cs.length) (by omega) hends
  rw [List.take_left, List.append_nil] at hcs
  rw [hcs] at hlt
  exact hlt (Nat.le_refl _)

end Extent

private theorem length_takeWhile_le (p : Char → Bool) (cs : List Char) :
    (cs.takeWhile p).length ≤ cs.length :=
  (List.takeWhile_prefix p).length_le

/-- What is taken of a text is not more where it is cut off behind that. -/
theorem takeWhile_take_append {p : Char → Bool} {w : Char} (hw : p w = false) {cs : List Char}
    {n : Nat} (us : List Char) (hn : (cs.takeWhile p).length ≤ n) :
    (cs.take n ++ w :: us).takeWhile p = cs.takeWhile p := by
  induction cs generalizing n with
  | nil => simp [hw]
  | cons c cs ih =>
    by_cases hc : p c
    · rw [List.takeWhile_cons_of_pos hc] at hn ⊢
      obtain ⟨m, rfl⟩ := Nat.exists_eq_add_of_le' (Nat.le_of_add_left_le hn)
      rw [List.take_succ_cons, List.cons_append, List.takeWhile_cons_of_pos hc,
        ih (Nat.le_of_succ_le_succ hn)]
    · rw [List.takeWhile_cons_of_neg hc]
      cases n with
      | zero => simp [hw]
      | succ n => rw [List.take_succ_cons, List.cons_append, List.takeWhile_cons_of_neg hc]

private theorem take_take_append {cs : List Char} {k n : Nat} (us : List Char) (hk : k ≤ n)
    (hle : k ≤ cs.length) : (cs.take n ++ us).take k = cs.take k := by
  rw [List.take_append_of_le_length (by rw [List.length_take]; omega), List.take_take,
    Nat.min_eq_left hk]

private theorem drop_take_append {cs : List Char} {k n : Nat} (us : List Char) (hk : k ≤ n)
    (hle : k ≤ cs.length) : (cs.take n ++ us).drop k = (cs.drop k).take (n - k) ++ us := by
  rw [List.drop_append_of_le_length (by rw [List.length_take]; omega), List.drop_take]

namespace NumericLiteral

private theorem decimalLength_le (pointSeen markSeen : Bool) (cs : List Char) :
    decimalLength pointSeen markSeen cs ≤ cs.length := by
  fun_induction decimalLength pointSeen markSeen cs <;> simp_all

/-- What the sign behind an exponent mark adds. -/
def exponentLength (pointSeen : Bool) : List Char → Nat
  | d :: cs =>
    if d = '+' || d = '-' then decimalLength pointSeen true cs + 1
    else decimalLength pointSeen true (d :: cs)
  | [] => 0

theorem decimalLength_cons (pointSeen markSeen : Bool) (c : Char) (cs : List Char) :
    decimalLength pointSeen markSeen (c :: cs) =
      if c.isDigit || c = '_' then decimalLength pointSeen markSeen cs + 1
      else if c = '.' && !pointSeen && !markSeen then decimalLength true markSeen cs + 1
      else if (c = 'e' || c = 'E') && !markSeen then exponentLength pointSeen cs + 1
      else 0 := by
  cases cs with
  | nil =>
    simp only [decimalLength, exponentLength]
    grind
  | cons d cs =>
    simp only [decimalLength, exponentLength]
    grind

section
variable {w : Char} (hw : isBlank w) (us : List Char)
include hw

theorem decimalLength_blank (pointSeen markSeen : Bool) :
    decimalLength pointSeen markSeen (w :: us) = 0 := by
  have hpoint : w ≠ '.' := ne_of_isBlank hw (by decide)
  have hline : w ≠ '_' := ne_of_isBlank hw (by decide)
  have hlower : w ≠ 'e' := ne_of_isBlank hw (by decide)
  have hupper : w ≠ 'E' := ne_of_isBlank hw (by decide)
  simp [decimalLength_cons, isDigit_of_isBlank hw, hpoint, hline, hlower, hupper]

private theorem exponentLength_take_append {pointSeen : Bool} {cs : List Char} {n : Nat}
    (h : ∀ rest m, rest.length ≤ cs.length → decimalLength pointSeen true rest ≤ m →
      decimalLength pointSeen true (rest.take m ++ w :: us) = decimalLength pointSeen true rest)
    (hn : exponentLength pointSeen cs ≤ n) :
    exponentLength pointSeen (cs.take n ++ w :: us) = exponentLength pointSeen cs := by
  have hplus : w ≠ '+' := ne_of_isBlank hw (by decide)
  have hminus : w ≠ '-' := ne_of_isBlank hw (by decide)
  have hblank : exponentLength pointSeen (w :: us) = 0 := by
    simp [exponentLength, hplus, hminus, decimalLength_blank hw]
  cases cs with
  | nil => rw [List.take_nil, List.nil_append, hblank, exponentLength]
  | cons d cs =>
    cases n with
    | zero => rw [List.take_zero, List.nil_append, hblank, Nat.le_zero.1 hn]
    | succ n =>
      have hall := h (d :: cs) (n + 1) (Nat.le_refl _)
      rw [List.take_succ_cons, List.cons_append] at hall ⊢
      rw [exponentLength] at hn ⊢
      rw [exponentLength]
      split
      · rename_i hsign
        rw [if_pos hsign] at hn
        rw [h cs n (Nat.le_succ _) (Nat.le_of_succ_le_succ hn)]
      · rename_i hsign
        rw [if_neg hsign] at hn
        exact hall hn

private theorem decimalLength_take_append {pointSeen markSeen : Bool} {cs : List Char} {n : Nat}
    (hn : decimalLength pointSeen markSeen cs ≤ n) :
    decimalLength pointSeen markSeen (cs.take n ++ w :: us) =
      decimalLength pointSeen markSeen cs := by
  match cs, n with
  | [], n => rw [List.take_nil, List.nil_append, decimalLength_blank hw, decimalLength]
  | c :: cs, 0 => rw [List.take_zero, List.nil_append, decimalLength_blank hw, Nat.le_zero.1 hn]
  | c :: cs, n + 1 =>
    rw [decimalLength_cons] at hn
    rw [List.take_succ_cons, List.cons_append, decimalLength_cons, decimalLength_cons]
    split
    · rename_i hdigit
      rw [if_pos hdigit] at hn
      rw [decimalLength_take_append (Nat.le_of_succ_le_succ hn)]
    · rename_i hdigit
      rw [if_neg hdigit] at hn
      split
      · rename_i hpoint
        rw [if_pos hpoint] at hn
        rw [decimalLength_take_append (Nat.le_of_succ_le_succ hn)]
      · rename_i hpoint
        rw [if_neg hpoint] at hn
        split
        · rename_i hmark
          rw [if_pos hmark] at hn
          rw [exponentLength_take_append hw us (fun rest m _ => decimalLength_take_append)
            (Nat.le_of_succ_le_succ hn)]
        · rfl
termination_by cs.length

private theorem suffixLength_take_append {cs : List Char} {n : Nat} (hn : suffixLength cs ≤ n) :
    suffixLength (cs.take n ++ w :: us) = suffixLength cs := by
  have hblank : suffixLength (w :: us) = 0 := by
    simp [suffixLength, ne_of_isBlank hw (c := 'n') (by decide)]
  cases cs with
  | nil =>
    rw [List.take_nil, List.nil_append, hblank]
    rfl
  | cons c cs =>
    cases n with
    | zero => rw [List.take_zero, List.nil_append, hblank, Nat.le_zero.1 hn]
    | succ n =>
      rw [List.take_succ_cons, List.cons_append]
      by_cases hc : c = 'n' <;> simp [suffixLength, hc]

end

private theorem suffixLength_le (cs : List Char) : suffixLength cs ≤ cs.length := by
  unfold suffixLength
  split <;> simp

private theorem readDecimal_le (first : Char) (cs : List Char) :
    (readDecimal first cs).2 ≤ cs.length := by
  have hd := decimalLength_le (first = '.') false cs
  have hs := suffixLength_le (cs.drop (decimalLength (first = '.') false cs))
  simp only [readDecimal, List.length_drop] at hs ⊢
  omega

private theorem readDecimal_take_append {w : Char} (hw : isBlank w) {first : Char} {cs : List Char}
    {n : Nat} (us : List Char) (hn : (readDecimal first cs).2 ≤ n) :
    readDecimal first (cs.take n ++ w :: us) = readDecimal first cs := by
  have hd := decimalLength_le (first = '.') false cs
  unfold readDecimal at hn ⊢
  dsimp only at hn ⊢
  rw [decimalLength_take_append hw us (Nat.le_of_add_right_le hn),
    take_take_append _ (Nat.le_of_add_right_le hn) hd,
    drop_take_append _ (Nat.le_of_add_right_le hn) hd, suffixLength_take_append hw us (by omega)]

theorem read_le (first : Char) (cs : List Char) : (read first cs).2 ≤ cs.length := by
  unfold read
  split
  · rename_i mark rest
    split
    · have := length_takeWhile_le isDigitOrLetter rest
      simpa using this
    · exact readDecimal_le _ _
  · exact readDecimal_le _ _

theorem radix?_of_isBlank {w : Char} (hw : isBlank w) : radix? w = none := by
  have := of_isBlank (p := fun c => (radix? c).isNone) (by decide) hw
  simpa using this

theorem isDigitOrLetter_of_isBlank {w : Char} (hw : isBlank w) : isDigitOrLetter w = false := by
  simp [isDigitOrLetter, isAlphanum_of_isBlank hw, ne_of_isBlank hw (c := '_') (by decide)]

theorem read_eq_readDecimal {first : Char} {cs : List Char}
    (h : first = '0' → cs.head?.bind radix? = none) : read first cs = readDecimal first cs := by
  unfold read
  split
  · rename_i mark rest
    have hmark : radix? mark = none := h rfl
    rw [hmark]
  · rfl

theorem read_take_append {w : Char} (hw : isBlank w) {first : Char} {cs : List Char} {n : Nat}
    (us : List Char) (hn : (read first cs).2 ≤ n) :
    read first (cs.take n ++ w :: us) = read first cs := by
  by_cases hdecimal : first = '0' → cs.head?.bind radix? = none
  · have hcut (h0 : first = '0') : (cs.take n ++ w :: us).head?.bind radix? = none := by
      cases cs with
      | nil => simp [radix?_of_isBlank hw]
      | cons mark rest =>
        cases n with
        | zero => exact radix?_of_isBlank hw
        | succ n => exact hdecimal h0
    rw [read_eq_readDecimal hdecimal] at hn ⊢
    rw [read_eq_readDecimal hcut, readDecimal_take_append hw us hn]
  · obtain ⟨rfl, hradix⟩ := Classical.not_imp.1 hdecimal
    obtain ⟨radix, hradix⟩ := Option.ne_none_iff_exists'.1 hradix
    obtain ⟨mark, hhead, hmark⟩ := Option.bind_eq_some_iff.1 hradix
    obtain ⟨rest, rfl⟩ := List.head?_eq_some_iff.1 hhead
    simp only [read, hmark] at hn
    obtain ⟨m, rfl⟩ := Nat.exists_eq_add_of_le' (Nat.le_of_add_left_le hn)
    rw [List.take_succ_cons, List.cons_append]
    simp only [read, hmark]
    rw [takeWhile_take_append (isDigitOrLetter_of_isBlank hw) us (Nat.le_of_succ_le_succ hn)]

/-- A literal that begins with a point has a digit behind it. -/
theorem read_pos {d : Char} (hd : d.isDigit) (cs : List Char) : 0 < (read '.' (d :: cs)).2 := by
  rw [read_eq_readDecimal fun h => absurd h (by decide)]
  simp only [readDecimal, decimalLength_cons, hd, Bool.true_or, if_true]
  omega

end NumericLiteral

/-- A literal that the text ends in the middle of. -/
def TokenKind.IsUnterminated (kind : TokenKind) : Prop := ∃ literal, kind = .unterminated literal

open TokenKind (IsUnterminated)

namespace Lexer

/-- What was read ends before the text does, unless it is complete. -/
def EndsIn (read : TokenKind × Nat) (cs : List Char) : Prop :=
  ¬IsUnterminated read.1 ∨ read.2 < cs.length

/-- A literal of this kind is unterminated where its extent is not closed. -/
structure ReadsLiteral (r : List Char → TokenKind × Nat) (e : List Char → Extent)
    (literal : LiteralKind) : Prop where
  endsLocally (cs : List Char) : Extent.EndsLocally e cs
  length_le (cs : List Char) : (e cs).length ≤ cs.length
  closed {cs : List Char} (h : (e cs).closed) : ¬IsUnterminated (r cs).1
  unclosed {cs : List Char} (h : (e cs).closed = false) :
    r cs = (.unterminated literal, (e cs).length)

namespace ReadsLiteral
variable {r : List Char → TokenKind × Nat} {e : List Char → Extent} {literal : LiteralKind}
  {cs : List Char}

theorem take_append (h : ReadsLiteral r e literal) {n : Nat} (us : List Char)
    (hn : (e cs).length ≤ n) (hend : EndsIn (r cs) cs) : e (cs.take n ++ us) = e cs := by
  refine (h.endsLocally cs).take_append us hn ?_
  cases hclosed : (e cs).closed with
  | true => exact .inl hclosed
  | false =>
    rw [h.unclosed hclosed] at hend
    exact hend.imp_left fun hterm => absurd ⟨literal, rfl⟩ hterm

/-- An unterminated literal goes on over blanks. -/
theorem append_blank (h : ReadsLiteral r e literal) (hr : IsUnterminated (r cs).1)
    {ws : List Char} (hw : ∀ w ∈ ws, isBlank w) :
    ∃ n, (r cs).2 ≤ n ∧ r (cs ++ ws) = ((r cs).1, n) := by
  have hopen : (e cs).closed = false := by
    by_contra hclosed
    exact h.closed (by simpa using hclosed) hr
  have hopen' : (e (cs ++ ws)).closed = false := by
    by_contra hclosed
    have := (h.endsLocally cs).closed_of_blank hw (by simpa using hclosed)
    rw [hopen] at this
    cases this
  rw [h.unclosed hopen, h.unclosed hopen']
  exact ⟨_, (h.endsLocally (cs ++ ws)).length_le_append (h.length_le cs), rfl⟩

end ReadsLiteral

theorem readsLiteral_blockComment :
    ReadsLiteral readBlockComment Extent.ofBlockComment .blockComment where
  endsLocally := Extent.endsLocally_ofBlockComment
  length_le := Extent.length_ofBlockComment_le
  closed h := by simp [readBlockComment, h, IsUnterminated]
  unclosed h := by simp [readBlockComment, h]

theorem readsLiteral_regex : ReadsLiteral readRegex (Extent.ofRegex false) .regularExpression where
  endsLocally := Extent.endsLocally_ofRegex false
  length_le := Extent.length_ofRegex_le false
  closed h := by simp [readRegex, h, IsUnterminated]
  unclosed h := by simp [readRegex, h]

theorem readsLiteral_quoted {quote : Char} (hq : isBlank quote = false) :
    ReadsLiteral (readQuoted quote) (Extent.ofQuoted quote) .string where
  endsLocally := Extent.endsLocally_ofFrames (List.forall_mem_singleton.2 hq)
  length_le := Extent.length_ofFrames_le _
  closed h := by simp [readQuoted, h, IsUnterminated]
  unclosed h := by simp [readQuoted, h]

theorem readsLiteral_template : ReadsLiteral readTemplate Extent.ofTemplate .template where
  endsLocally := Extent.endsLocally_ofFrames (List.forall_mem_singleton.2 trivial)
  length_le := Extent.length_ofFrames_le _
  closed h := by simp [readTemplate, h, IsUnterminated]
  unclosed h := by simp [readTemplate, h]

private theorem readLineComment_le (cs : List Char) : (readLineComment cs).2 ≤ cs.length :=
  length_takeWhile_le _ cs

private theorem readBlockComment_le (cs : List Char) : (readBlockComment cs).2 ≤ cs.length :=
  Extent.length_ofBlockComment_le cs

private theorem readRegex_le (cs : List Char) : (readRegex cs).2 ≤ cs.length := by
  have hle := Extent.length_ofRegex_le false cs
  have hflags := length_takeWhile_le Char.isAlpha (cs.drop (Extent.ofRegex false cs).length)
  rw [List.length_drop] at hflags
  simp only [readRegex]
  split <;> dsimp only <;> omega

private theorem readRegex_pos (c : Char) (cs : List Char) : 0 < (readRegex (c :: cs)).2 := by
  have hpos := Extent.length_ofRegex_pos false c cs
  simp only [readRegex]
  split <;> dsimp only <;> omega

private theorem readSlash_le (regexAllowed : Bool) (cs : List Char) :
    (readSlash regexAllowed cs).2 ≤ cs.length := by
  unfold readSlash
  split
  · rename_i rest
    exact Nat.succ_le_succ (readLineComment_le rest)
  · rename_i rest
    exact Nat.succ_le_succ (readBlockComment_le rest)
  · split
    · exact readRegex_le cs
    · exact Nat.zero_le _

private theorem readQuoted_le (quote : Char) (cs : List Char) :
    (readQuoted quote cs).2 ≤ cs.length :=
  Extent.length_ofFrames_le _ cs

private theorem readTemplate_le (cs : List Char) : (readTemplate cs).2 ≤ cs.length :=
  Extent.length_ofFrames_le _ cs

private theorem readIdentifier_le (first : Char) (cs : List Char) :
    (readIdentifier first cs).2 ≤ cs.length :=
  length_takeWhile_le _ cs

private theorem readDot_le (cs : List Char) : (readDot cs).2 ≤ cs.length := by
  unfold readDot
  split
  · simp
  · split
    · exact NumericLiteral.read_le _ _
    · exact Nat.zero_le _
  · exact Nat.zero_le _

theorem readSlash_cons (regexAllowed : Bool) (c : Char) (cs : List Char) :
    readSlash regexAllowed (c :: cs) =
      if c = '/' then ((readLineComment cs).1, (readLineComment cs).2 + 1)
      else if c = '*' then ((readBlockComment cs).1, (readBlockComment cs).2 + 1)
      else if regexAllowed then readRegex (c :: cs) else (.punct '/', 0) := by
  by_cases hline : c = '/'
  · subst hline
    rfl
  by_cases hblock : c = '*'
  · subst hblock
    rfl
  rw [if_neg hline, if_neg hblock, readSlash]
  · intro rest h
    exact hline (List.cons_eq_cons.1 h).1
  · intro rest h
    exact hblock (List.cons_eq_cons.1 h).1

theorem readDot_cons (c : Char) (cs : List Char) :
    readDot (c :: cs) =
      if c = '.' ∧ cs.head? = some '.' then (.spread, 2)
      else if c.isDigit then NumericLiteral.read '.' (c :: cs)
      else (.dot, 0) := by
  rw [readDot.eq_def]
  split
  · rename_i h
    obtain ⟨rfl, rfl⟩ := List.cons_eq_cons.1 h
    rfl
  · rename_i hne h
    obtain ⟨rfl, rfl⟩ := List.cons_eq_cons.1 h
    have hspread : ¬(c = '.' ∧ cs.head? = some '.') := by
      rintro ⟨rfl, hd⟩
      obtain ⟨rest, rfl⟩ := List.head?_eq_some_iff.1 hd
      exact hne rest rfl rfl
    rw [if_neg hspread]
  · rename_i h
    cases h

section
variable {w : Char} (hw : isBlank w) {cs : List Char} {n : Nat} (us : List Char)

private theorem readLineComment_take_append (hn : (readLineComment cs).2 ≤ n) :
    readLineComment (cs.take n ++ '\n' :: us) = readLineComment cs := by
  rw [readLineComment, takeWhile_take_append (by simp) us hn]
  rfl

theorem readBlockComment_take_append (hn : (readBlockComment cs).2 ≤ n)
    (hend : EndsIn (readBlockComment cs) cs) :
    readBlockComment (cs.take n ++ us) = readBlockComment cs := by
  have hle := Extent.length_ofBlockComment_le cs
  have hsame := readsLiteral_blockComment.take_append us hn hend
  simp only [readBlockComment] at hn ⊢
  rw [hsame, take_take_append us (by omega) (by omega)]

private theorem readQuoted_take_append {quote : Char} (hq : isBlank quote = false)
    (hn : (readQuoted quote cs).2 ≤ n) (hend : EndsIn (readQuoted quote cs) cs) :
    readQuoted quote (cs.take n ++ us) = readQuoted quote cs := by
  have hle : (Extent.ofQuoted quote cs).length ≤ cs.length := Extent.length_ofFrames_le _ cs
  have hsame := (readsLiteral_quoted hq).take_append us hn hend
  simp only [readQuoted] at hn ⊢
  rw [hsame, take_take_append us (by omega) (by omega)]

private theorem readTemplate_take_append (hn : (readTemplate cs).2 ≤ n)
    (hend : EndsIn (readTemplate cs) cs) : readTemplate (cs.take n ++ us) = readTemplate cs := by
  have hle : (Extent.ofTemplate cs).length ≤ cs.length := Extent.length_ofFrames_le _ cs
  have hsame := readsLiteral_template.take_append us hn hend
  simp only [readTemplate] at hn ⊢
  rw [hsame, take_take_append us (by omega) (by omega)]

include hw

private theorem readRegex_take_append (hn : (readRegex cs).2 ≤ n)
    (hend : EndsIn (readRegex cs) cs) :
    readRegex (cs.take n ++ w :: us) = readRegex cs := by
  have hle := Extent.length_ofRegex_le false cs
  cases hclosed : (Extent.ofRegex false cs).closed with
  | false =>
    have hlen : (Extent.ofRegex false cs).length ≤ n := by
      rwa [readsLiteral_regex.unclosed hclosed] at hn
    have hsame := readsLiteral_regex.take_append (w :: us) hlen hend
    rw [readsLiteral_regex.unclosed hclosed, readsLiteral_regex.unclosed (hsame ▸ hclosed), hsame]
  | true =>
    simp only [readRegex, hclosed, if_true] at hn
    have hlen : (Extent.ofRegex false cs).length ≤ n := Nat.le_of_add_right_le hn
    have hsame := readsLiteral_regex.take_append (w :: us) hlen hend
    simp only [readRegex, hsame, hclosed, if_true]
    rw [take_take_append _ (by omega) (by omega), drop_take_append _ hlen hle,
      takeWhile_take_append (isAlpha_of_isBlank hw) us (by omega)]

private theorem readSlash_take_append {regexAllowed : Bool} (hn : (readSlash regexAllowed cs).2 ≤ n)
    (hend : EndsIn (readSlash regexAllowed cs) cs)
    (hline : (readSlash regexAllowed cs).1.isTrivia → w = '\n') :
    readSlash regexAllowed (cs.take n ++ w :: us) = readSlash regexAllowed cs := by
  have hdivides : readSlash false (w :: us) = (.punct '/', 0) := by
    rw [readSlash_cons, if_neg (ne_of_isBlank hw (by decide)),
      if_neg (ne_of_isBlank hw (by decide))]
    rfl
  match cs, n with
  | [], n =>
    cases regexAllowed with
    | false => rwa [List.take_nil, List.nil_append]
    | true =>
      rcases hend with hterm | hlt
      · exact absurd ⟨.regularExpression, rfl⟩ hterm
      · exact absurd hlt (Nat.not_lt_zero _)
  | c :: cs, 0 =>
    rw [readSlash_cons] at hn
    rw [List.take_zero, List.nil_append, readSlash_cons regexAllowed c]
    split
    · rename_i hc
      rw [if_pos hc] at hn
      cases hn
    · rename_i hnotLine
      rw [if_neg hnotLine] at hn
      split
      · rename_i hc
        rw [if_pos hc] at hn
        cases hn
      · rename_i hnotBlock
        rw [if_neg hnotBlock] at hn
        split
        · rename_i hregex
          rw [if_pos hregex] at hn
          exact absurd hn (Nat.not_le_of_lt (readRegex_pos c cs))
        · rename_i hregex
          rwa [Bool.eq_false_of_not_eq_true hregex]
  | c :: cs, n + 1 =>
    rw [List.take_succ_cons, List.cons_append, readSlash_cons, readSlash_cons]
    rw [readSlash_cons] at hn hend hline
    split
    · rename_i hc
      rw [if_pos hc] at hn hline
      obtain rfl := hline rfl
      rw [readLineComment_take_append us (Nat.le_of_succ_le_succ hn)]
    · rename_i hnotLine
      rw [if_neg hnotLine] at hn hend
      split
      · rename_i hc
        rw [if_pos hc] at hn hend
        have hblock : EndsIn (readBlockComment cs) cs := by
          exact hend.imp_right Nat.lt_of_succ_lt_succ
        rw [readBlockComment_take_append _ (Nat.le_of_succ_le_succ hn) hblock]
      · rename_i hnotBlock
        rw [if_neg hnotBlock] at hn hend
        split
        · rename_i hregex
          rw [if_pos hregex] at hn hend
          rw [← List.cons_append, ← List.take_succ_cons, readRegex_take_append hw us hn hend]
        · rfl

private theorem readIdentifier_take_append (first : Char) (hn : (readIdentifier first cs).2 ≤ n) :
    readIdentifier first (cs.take n ++ w :: us) = readIdentifier first cs := by
  rw [readIdentifier, takeWhile_take_append (isIdentifierPart_of_isBlank hw) us hn]
  rfl

private theorem readDot_take_append (hn : (readDot cs).2 ≤ n) :
    readDot (cs.take n ++ w :: us) = readDot cs := by
  have hpoint : w ≠ '.' := ne_of_isBlank hw (by decide)
  have hblank : readDot (w :: us) = (.dot, 0) := by
    rw [readDot_cons, if_neg fun h => hpoint h.1, if_neg (by simp [isDigit_of_isBlank hw])]
  match cs, n with
  | [], n => rwa [List.take_nil, List.nil_append]
  | c :: cs, 0 =>
    rw [readDot_cons] at hn
    rw [List.take_zero, List.nil_append, hblank, readDot_cons]
    split
    · rename_i hspread
      rw [if_pos hspread] at hn
      cases hn
    · rename_i hspread
      rw [if_neg hspread] at hn
      split
      · rename_i hdigit
        rw [if_pos hdigit] at hn
        exact absurd hn (Nat.not_le_of_lt (NumericLiteral.read_pos hdigit cs))
      · rfl
  | c :: cs, n + 1 =>
    rw [readDot_cons] at hn
    have hhead : (cs.take n ++ w :: us).head? = some '.' ↔ n ≠ 0 ∧ cs.head? = some '.' := by
      cases n <;> cases cs <;> simp [hpoint]
    rw [List.take_succ_cons, List.cons_append, readDot_cons, readDot_cons]
    by_cases hspread : c = '.' ∧ cs.head? = some '.'
    · rw [if_pos hspread] at hn
      have hn : n ≠ 0 := Nat.ne_of_gt (Nat.le_of_succ_le_succ hn)
      rw [if_pos hspread, if_pos ⟨hspread.1, hhead.2 ⟨hn, hspread.2⟩⟩]
    · rw [if_neg hspread] at hn
      rw [if_neg hspread, if_neg fun h => hspread ⟨h.1, (hhead.1 h.2).2⟩]
      split
      · rename_i hdigit
        rw [if_pos hdigit] at hn
        rw [← List.cons_append, ← List.take_succ_cons, NumericLiteral.read_take_append hw us hn]
      · rfl

end

private theorem readSlash_append_blank {regexAllowed : Bool} {cs ws : List Char}
    (h : IsUnterminated (readSlash regexAllowed cs).1) (hw : ∀ w ∈ ws, isBlank w) :
    ∃ n, (readSlash regexAllowed cs).2 ≤ n ∧
      readSlash regexAllowed (cs ++ ws) = ((readSlash regexAllowed cs).1, n) := by
  match cs with
  | [] =>
    cases regexAllowed with
    | false =>
      obtain ⟨literal, h⟩ := h
      cases h
    | true =>
      cases ws with
      | nil => exact ⟨0, Nat.le_refl 0, rfl⟩
      | cons w ws =>
        have hwb := (List.forall_mem_cons.1 hw).1
        rw [List.nil_append, readSlash_cons, if_neg (ne_of_isBlank hwb (by decide)),
          if_neg (ne_of_isBlank hwb (by decide)), if_pos rfl]
        have hr : IsUnterminated (readRegex []).1 := h
        exact readsLiteral_regex.append_blank hr hw
  | c :: cs =>
    rw [readSlash_cons] at h
    rw [List.cons_append, readSlash_cons, readSlash_cons]
    split
    · rename_i hc
      rw [if_pos hc] at h
      obtain ⟨literal, h⟩ := h
      cases h
    · rename_i hnotLine
      rw [if_neg hnotLine] at h
      split
      · rename_i hc
        rw [if_pos hc] at h
        obtain ⟨n, hn, happend⟩ := readsLiteral_blockComment.append_blank h hw
        exact ⟨n + 1, Nat.succ_le_succ hn, by rw [happend]⟩
      · rename_i hnotBlock
        rw [if_neg hnotBlock] at h
        split
        · rename_i hregex
          rw [if_pos hregex] at h
          exact readsLiteral_regex.append_blank h hw
        · rename_i hregex
          rw [if_neg hregex] at h
          obtain ⟨literal, h⟩ := h
          cases h

/-- A literal that spells no number is the character it begins with. -/
theorem number_kind (first : Char) (cs : List Char) :
    (∃ value, (NumericLiteral.read first cs).1 = .number value) ∨
      (NumericLiteral.read first cs).1 = .punct first := by
  have hkind (value? : Option Binary64) :
      (∃ value, NumericLiteral.kindOf first value? = .number value) ∨
        NumericLiteral.kindOf first value? = .punct first := by
    cases value? with
    | none => exact .inr rfl
    | some value => exact .inl ⟨value, rfl⟩
  unfold NumericLiteral.read
  split
  · split
    · exact hkind _
    · exact hkind _
  · exact hkind _

theorem number_not_unterminated (first : Char) (cs : List Char) :
    ¬IsUnterminated (NumericLiteral.read first cs).1 := by
  rintro ⟨literal, h⟩
  rcases number_kind first cs with ⟨value, hn⟩ | hn
  · cases hn.symm.trans h
  · cases hn.symm.trans h

private theorem readDot_not_unterminated (cs : List Char) : ¬IsUnterminated (readDot cs).1 := by
  unfold readDot
  split
  · simp [IsUnterminated]
  · split
    · exact number_not_unterminated _ _
    · simp [IsUnterminated]
  · simp [IsUnterminated]

theorem read_le (regexAllowed : Bool) (c : Char) (cs : List Char) :
    (read regexAllowed c cs).2 ≤ cs.length := by
  unfold read
  split
  case h_10 =>
    split <;> simp
  case h_11 => exact readDot_le cs
  case h_12 => exact readSlash_le regexAllowed cs
  case h_13 => exact readQuoted_le _ cs
  case h_14 => exact readQuoted_le _ cs
  case h_15 => exact readTemplate_le cs
  case h_16 =>
    split
    · exact length_takeWhile_le _ cs
    · split
      · exact readIdentifier_le _ cs
      · split
        · exact NumericLiteral.read_le _ cs
        · exact Nat.zero_le _
  all_goals exact Nat.zero_le _

theorem read_blank {c : Char} (hc : isBlank c) (regexAllowed : Bool) (cs : List Char) :
    read regexAllowed c cs = (.whitespace, (cs.takeWhile isBlank).length) := by
  unfold read
  split
  case h_16 => rw [if_pos hc]
  all_goals exact absurd hc (by decide)

section
variable {regexAllowed : Bool} {c : Char} {cs : List Char}

/-- A token that ends before the text does stays what it is where the text is cut off behind it and
goes on with a blank. -/
theorem read_take_append {w : Char} (hw : isBlank w) (hc : isBlank c = false) {n : Nat}
    (us : List Char) (hn : (read regexAllowed c cs).2 ≤ n)
    (hend : EndsIn (read regexAllowed c cs) cs)
    (hline : (read regexAllowed c cs).1.isTrivia → w = '\n') :
    read regexAllowed c (cs.take n ++ w :: us) = read regexAllowed c cs := by
  unfold read at hn hend hline ⊢
  split
  case h_10 =>
    have harrow : w ≠ '>' := ne_of_isBlank hw (by decide)
    match cs, n with
    | [], n => simp [harrow]
    | d :: cs, 0 =>
      by_cases hd : d = '>'
      · subst hd
        cases hn
      · simp [harrow, hd]
    | d :: cs, n + 1 =>
      by_cases hd : d = '>' <;> simp [hd]
  case h_11 => exact readDot_take_append hw us hn
  case h_12 => exact readSlash_take_append hw us hn hend hline
  case h_13 => exact readQuoted_take_append _ (by decide) hn hend
  case h_14 => exact readQuoted_take_append _ (by decide) hn hend
  case h_15 => exact readTemplate_take_append _ hn hend
  case h_16 =>
    simp only [hc, Bool.false_eq_true, if_false] at hn hend ⊢
    split
    · rename_i hstart
      rw [if_pos hstart] at hn
      exact readIdentifier_take_append hw us c hn
    · rename_i hstart
      rw [if_neg hstart] at hn
      split
      · rename_i hdigit
        rw [if_pos hdigit] at hn
        exact NumericLiteral.read_take_append hw us hn
      · rfl
  all_goals rfl

/-- A line end never changes the token before it. -/
theorem read_append (more : List Char) (hc : isBlank c = false)
    (h : ¬IsUnterminated (read regexAllowed c cs).1) :
    read regexAllowed c (cs ++ '\n' :: more) = read regexAllowed c cs := by
  have := read_take_append (w := '\n') rfl hc more (read_le regexAllowed c cs) (.inl h) fun _ => rfl
  rwa [List.take_length] at this

/-- Only these characters begin a literal or a comment. -/
theorem eq_of_unterminated (h : IsUnterminated (read regexAllowed c cs).1) :
    c = '/' ∨ c = '"' ∨ c = '\'' ∨ c = '`' := by
  obtain ⟨literal, h⟩ := h
  unfold read at h
  split at h
  case h_10 => split at h <;> cases h
  case h_11 => exact absurd ⟨literal, h⟩ (readDot_not_unterminated cs)
  case h_12 => exact .inl rfl
  case h_13 => exact .inr (.inl rfl)
  case h_14 => exact .inr (.inr (.inl rfl))
  case h_15 => exact .inr (.inr (.inr rfl))
  case h_16 =>
    split at h
    · cases h
    · split at h
      · cases h
      · split at h
        · exact absurd ⟨literal, h⟩ (number_not_unterminated c cs)
        · cases h
  all_goals cases h

/-- A literal that the text ends in goes on over blanks. -/
theorem read_append_blank {ws : List Char} (h : IsUnterminated (read regexAllowed c cs).1)
    (hw : ∀ w ∈ ws, isBlank w) :
    ∃ n, (read regexAllowed c cs).2 ≤ n ∧
      read regexAllowed c (cs ++ ws) = ((read regexAllowed c cs).1, n) := by
  rcases eq_of_unterminated h with rfl | rfl | rfl | rfl
  · exact readSlash_append_blank h hw
  · exact (readsLiteral_quoted (by decide)).append_blank h hw
  · exact (readsLiteral_quoted (by decide)).append_blank h hw
  · exact readsLiteral_template.append_blank h hw

end

end Lexer
end DesignTokens.Script
