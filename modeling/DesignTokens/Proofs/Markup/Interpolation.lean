import DesignTokens.Markup.Attribute
import DesignTokens.Proofs.Script.Lexemes
import Mathlib.Algebra.Ring.Int.Defs

/-! # Where an interpolation of a class list ends

A script reader passes over the quoted text and the templates inside an interpolation, and the
reader of class lists counts braces only. Both find the same end unless braces of text mislead the
count. -/
namespace DesignTokens

namespace Script.Extent

/-- A brace that is passed over: what it does to the number of open braces, and whether it is code
or stands in quoted text or in a template. -/
structure Brace where
  inCode : Bool
  turn : Int
  deriving DecidableEq

namespace Brace

def turn? (c : Char) : Option Int :=
  if c = '\x7b' then some 1 else if c = '\x7d' then some (-1) else none

def ofChar (inCode : Bool) (c : Char) : List Brace := ((turn? c).map (mk inCode)).toList

/-- How many more braces of code, or of text, are opened than closed. -/
def net (inCode : Bool) (bs : List Brace) : Int :=
  ((bs.filter (·.inCode = inCode)).map turn).sum

@[simp] theorem net_nil (inCode : Bool) : net inCode [] = 0 := rfl

@[simp] theorem net_append (inCode : Bool) (bs bs' : List Brace) :
    net inCode (bs ++ bs') = net inCode bs + net inCode bs' := by
  simp [net]

theorem ofChar_of_none {c : Char} (h : turn? c = none) (inCode : Bool) : ofChar inCode c = [] := by
  rw [ofChar, h]
  rfl

theorem ofChar_of_some {c : Char} {t : Int} (h : turn? c = some t) (inCode : Bool) :
    ofChar inCode c = [⟨inCode, t⟩] := by
  rw [ofChar, h]
  rfl

private theorem net_text (c : Char) : net true (ofChar false c) = 0 := by
  cases h : turn? c with
  | none => rw [ofChar_of_none h, net_nil]
  | some t =>
    rw [ofChar_of_some h]
    rfl

/-- The last brace is the one that closes the code around the others. -/
def closing : Brace := ⟨true, -1⟩

end Brace

/-- The braces up to the end of all the frames, in their order. -/
def braces : List Frame → List Char → List Brace
  | [], _ => []
  | _ :: _, [] => []
  | .code :: frames, c :: cs => Brace.ofChar true c ++ braces (Frame.enter frames c) cs
  | .quoted quote :: frames, c :: cs =>
    if c = quote then Brace.ofChar false c ++ braces frames cs
    else if c = '\n' then []
    else if c = '\\' then
      match cs with
      | [] => []
      | d :: rest => Brace.ofChar false d ++ braces (.quoted quote :: frames) rest
    else Brace.ofChar false c ++ braces (.quoted quote :: frames) cs
  | .template :: _, ['\\'] => []
  | .template :: frames, '\\' :: d :: cs => Brace.ofChar false d ++ braces (.template :: frames) cs
  | .template :: frames, '$' :: '\x7b' :: cs =>
    ⟨true, 1⟩ :: braces (.code :: .template :: frames) cs
  | .template :: frames, c :: cs =>
    if c = '`' then braces frames cs else Brace.ofChar false c ++ braces (.template :: frames) cs

section
variable (quote : Char) (frames : List Frame) (c : Char) (cs : List Char)
attribute [local simp] braces

private theorem braces_quote : braces (.quoted quote :: frames) (quote :: cs) =
    Brace.ofChar false quote ++ braces frames cs := by
  rw [braces.eq_def]
  simp

private theorem braces_quoted_escaped (hq : '\\' ≠ quote) :
    braces (.quoted quote :: frames) ('\\' :: c :: cs) =
      Brace.ofChar false c ++ braces (.quoted quote :: frames) cs := by
  simp [hq]

variable {c} in
private theorem braces_plain (hq : c ≠ quote) (hn : c ≠ '\n') (hb : c ≠ '\\') :
    braces (.quoted quote :: frames) (c :: cs) =
      Brace.ofChar false c ++ braces (.quoted quote :: frames) cs := by
  rw [braces.eq_def]
  simp [hq, hn, hb]

private theorem braces_escaped : braces (.template :: frames) ('\\' :: c :: cs) =
    Brace.ofChar false c ++ braces (.template :: frames) cs := by
  simp

private theorem braces_interpolation : braces (.template :: frames) ('$' :: '\x7b' :: cs) =
    ⟨true, 1⟩ :: braces (.code :: .template :: frames) cs := by
  simp

private theorem braces_backtick : braces (.template :: frames) ('`' :: cs) = braces frames cs := by
  simp

variable {c} in
private theorem braces_static (hb : c ≠ '\\') (ht : c ≠ '`')
    (hd : c = '$' → cs.head? ≠ some '\x7b') :
    braces (.template :: frames) (c :: cs) =
      Brace.ofChar false c ++ braces (.template :: frames) cs := by
  rw [braces]
  · rw [if_neg ht]
  · simp [hb]
  · simp [hb]
  · rintro rest rfl rfl
    exact hd rfl rfl

end

/-- The text closes `level` braces of code by its `n`-th character and not before. -/
structure Closes (level : Int) (cs : List Char) (n : Nat) (bs : List Brace) : Prop where
  exists_last : ∃ init rest before, cs = init ++ '\x7d' :: rest ∧ n = init.length + 1 ∧
    bs = before ++ [Brace.closing] ∧ before.map Brace.turn = init.filterMap Brace.turn? ∧
    level + Brace.net true before = 1 ∧ ∀ p, p <+: before → 1 ≤ level + Brace.net true p

namespace Closes
variable {level : Int} {cs : List Char} {n : Nat} {bs : List Brace}

theorem last (rest : List Char) : Closes 1 ('\x7d' :: rest) 1 [Brace.closing] := by
  refine ⟨[], rest, [], rfl, rfl, rfl, rfl, rfl, fun p hp => ?_⟩
  rw [List.prefix_nil.1 hp]
  decide

theorem cons (inCode : Bool) (c : Char) (hlevel : 1 ≤ level)
    (h : Closes (level + Brace.net true (Brace.ofChar inCode c)) cs n bs) :
    Closes level (c :: cs) (n + 1) (Brace.ofChar inCode c ++ bs) := by
  obtain ⟨init, rest, before, rfl, rfl, rfl, hmap, htotal, hprefix⟩ := h
  rw [Int.add_assoc, ← Brace.net_append] at htotal
  have hprefix' : ∀ p, p <+: before →
      1 ≤ level + Brace.net true (Brace.ofChar inCode c ++ p) := by
    intro p hp
    rw [Brace.net_append, ← Int.add_assoc]
    exact hprefix p hp
  refine ⟨c :: init, rest, Brace.ofChar inCode c ++ before, rfl, rfl,
    (List.append_assoc _ _ _).symm, ?_, htotal, ?_⟩
  · rw [List.map_append, hmap, List.filterMap_cons]
    cases hc : Brace.turn? c with
    | none => rw [Brace.ofChar_of_none hc, List.map_nil, List.nil_append]
    | some t => rw [Brace.ofChar_of_some hc, List.map_singleton, List.singleton_append]
  · cases hc : Brace.turn? c with
    | none =>
      rw [Brace.ofChar_of_none hc] at hprefix' ⊢
      exact hprefix'
    | some t =>
      rw [Brace.ofChar_of_some hc] at hprefix' ⊢
      intro p hp
      rcases List.prefix_cons_iff.1 hp with rfl | ⟨q, rfl, hq⟩
      · rwa [Brace.net_nil, Int.add_zero]
      · exact hprefix' q hq

/-- Braces of text do not change the level of the code. -/
theorem text (c : Char) (hlevel : 1 ≤ level) (h : Closes level cs n bs) :
    Closes level (c :: cs) (n + 1) (Brace.ofChar false c ++ bs) := by
  refine cons false c hlevel ?_
  rwa [Brace.net_text, Int.add_zero]

theorem other {c : Char} (hc : Brace.turn? c = none) (hlevel : 1 ≤ level)
    (h : Closes level cs n bs) : Closes level (c :: cs) (n + 1) bs := by
  have := text c hlevel h
  rwa [Brace.ofChar_of_none hc, List.nil_append] at this

end Closes

theorem more_eq_closed {e : Extent} {k n : Nat} (h : e.more k = ⟨true, n⟩) :
    ∃ m, n = m + k ∧ e = ⟨true, m⟩ := by
  obtain ⟨closed, m⟩ := e
  obtain ⟨rfl, rfl⟩ := Extent.mk.inj h
  exact ⟨m, Nat.add_comm k m, rfl⟩

theorem count_pos_of_getLast? {frames : List Frame} (h : frames.getLast? = some .code) :
    (1 : Int) ≤ frames.count .code := by
  have : 0 < frames.count .code := List.count_pos_iff.2 (List.mem_of_getLast? h)
  omega

/-- Behind a character of code stand frames around the same code, unless it is the last one. -/
theorem enter_cases (c : Char) {frames : List Frame}
    (h : (Frame.code :: frames).getLast? = some .code) :
    (c = '\x7d' ∧ frames = []) ∨
      ((Frame.enter frames c).count .code : Int) =
          (Frame.code :: frames).count .code + Brace.net true (Brace.ofChar true c) ∧
        (Frame.enter frames c).getLast? = some .code := by
  rw [← h]
  unfold Frame.enter
  split
  · simp [Brace.ofChar, Brace.turn?, Brace.net]
  · cases frames with
    | nil => exact .inl ⟨rfl, rfl⟩
    | cons frame frames =>
      have hnet : Brace.net true (Brace.ofChar true '\x7d') = -1 := rfl
      rw [hnet, List.count_cons_self, List.getLast?_cons_cons]
      exact .inr ⟨by omega, rfl⟩
  · simp [Brace.ofChar, Brace.turn?]
  · simp [Brace.ofChar, Brace.turn?]
  · simp [Brace.ofChar, Brace.turn?]
  · rename_i hopen hclose _ _ _
    have hnone : Brace.turn? c = none := by
      rw [Brace.turn?, if_neg hopen, if_neg hclose]
    simp [Brace.ofChar_of_none hnone]

private theorem getLast?_of_cons {frame : Frame} {frames : List Frame} (hframe : frame ≠ .code)
    (h : (frame :: frames).getLast? = some .code) : frames.getLast? = some .code := by
  cases frames with
  | nil => exact absurd (Option.some.inj h) hframe
  | cons frame' frames => rwa [List.getLast?_cons_cons] at h

/-- The braces of code that are passed over close the frames. -/
theorem closes_braces {frames : List Frame} {cs : List Char} {n : Nat}
    (h : ofFrames frames cs = ⟨true, n⟩) (hlast : frames.getLast? = some .code) :
    Closes (frames.count .code) cs n (braces frames cs) := by
  have hcount := count_pos_of_getLast? hlast
  fun_induction ofFrames frames cs generalizing n with
  | case1 => cases hlast
  | case2 => cases h
  | case3 frames c cs ih =>
    obtain ⟨m, rfl, hm⟩ := more_eq_closed h
    rw [braces]
    rcases enter_cases c hlast with ⟨rfl, rfl⟩ | ⟨hlevel, hlast'⟩
    · rw [Frame.enter, ofFrames_nil] at hm
      cases hm
      rw [Frame.enter, braces]
      exact .last cs
    · refine .cons true c hcount ?_
      rw [← hlevel]
      exact ih hm hlast' (count_pos_of_getLast? hlast')
  | case4 frames quote cs ih =>
    obtain ⟨m, rfl, hm⟩ := more_eq_closed h
    rw [braces_quote]
    rw [List.count_cons_of_ne (by simp)] at hcount ⊢
    exact .text _ hcount (ih hm (getLast?_of_cons (by simp) hlast) hcount)
  | case5 => cases h
  | case6 => cases h
  | case7 quote frames c cs hq _ ih =>
    obtain ⟨m, rfl, hm⟩ := more_eq_closed h
    rw [braces_quoted_escaped _ _ _ _ hq]
    exact .other (by decide) hcount (.text c hcount (ih hm hlast hcount))
  | case8 quote frames c cs hq hn hb ih =>
    obtain ⟨m, rfl, hm⟩ := more_eq_closed h
    rw [braces_plain _ _ _ hq hn hb]
    exact .text c hcount (ih hm hlast hcount)
  | case9 => cases h
  | case10 frames c cs ih =>
    obtain ⟨m, rfl, hm⟩ := more_eq_closed h
    rw [braces_escaped]
    exact .other (by decide) hcount (.text c hcount (ih hm hlast hcount))
  | case11 frames cs ih =>
    obtain ⟨m, rfl, hm⟩ := more_eq_closed h
    rw [braces_interpolation]
    have hlevel : ((Frame.template :: frames).count .code : Int) +
        Brace.net true (Brace.ofChar true '\x7b') =
          (Frame.code :: .template :: frames).count .code := by
      rw [List.count_cons_self, Brace.ofChar_of_some rfl]
      rfl
    have hinner := ih hm hlast (count_pos_of_getLast? hlast)
    rw [← hlevel] at hinner
    exact .other (by decide) hcount (.cons true '\x7b' hcount hinner)
  | case12 frames cs _ _ _ ih =>
    obtain ⟨m, rfl, hm⟩ := more_eq_closed h
    rw [braces_backtick]
    rw [List.count_cons_of_ne (by simp)] at hcount ⊢
    exact .other (by decide) hcount (ih hm (getLast?_of_cons (by simp) hlast) hcount)
  | case13 frames c cs hend hesc hcode ht ih =>
    obtain ⟨m, rfl, hm⟩ := more_eq_closed h
    rw [braces_static _ _ ?_ ht ?_]
    · exact .text c hcount (ih hm hlast hcount)
    · rintro rfl
      cases cs with
      | nil => exact (hend rfl rfl).elim
      | cons d cs => exact hesc d cs rfl rfl
    · intro hd hbrace
      obtain ⟨tail, rfl⟩ := List.head?_eq_some_iff.1 hbrace
      exact hcode tail hd rfl

end Script.Extent

namespace Markup
open Script.Extent (Brace)

/-- Some text leaves at least one of `level` braces open wherever it is cut, and one in the end. -/
def StaysOpen : (level : Int) → List Char → Prop
  | level, [] => level = 1
  | level, c :: cs => 1 ≤ level ∧ StaysOpen (level + (Brace.turn? c).getD 0) cs

private theorem StaysOpen.one_le {level : Int} {cs : List Char} (h : StaysOpen level cs) :
    1 ≤ level := by
  cases cs with
  | nil => exact Int.le_of_eq (Eq.symm h)
  | cons c cs => exact h.1

theorem staysOpen_iff {level : Int} {cs : List Char} :
    StaysOpen level cs ↔ level + (cs.filterMap Brace.turn?).sum = 1 ∧
      ∀ p, p <+: cs.filterMap Brace.turn? → 1 ≤ level + p.sum := by
  induction cs generalizing level with
  | nil => simp [StaysOpen]; omega
  | cons c cs ih =>
    rw [StaysOpen, ih]
    cases hc : Brace.turn? c with
    | none =>
      rw [List.filterMap_cons_none hc, Option.getD_none, Int.add_zero, and_iff_right_of_imp]
      rintro ⟨-, hprefix⟩
      simpa using hprefix [] List.nil_prefix
    | some t =>
      rw [List.filterMap_cons_some hc, Option.getD_some, List.sum_cons, ← Int.add_assoc]
      constructor
      · rintro ⟨hlevel, htotal, hprefix⟩
        refine ⟨htotal, fun p hp => ?_⟩
        rcases List.prefix_cons_iff.1 hp with rfl | ⟨q, rfl, hq⟩
        · simpa using hlevel
        · rw [List.sum_cons, ← Int.add_assoc]
          exact hprefix q hq
      · rintro ⟨htotal, hprefix⟩
        refine ⟨by simpa using hprefix [] List.nil_prefix, htotal, fun p hp => ?_⟩
        have := hprefix (t :: p) (List.cons_prefix_cons.2 ⟨rfl, hp⟩)
        rwa [List.sum_cons, ← Int.add_assoc] at this

theorem getD_turn? (c : Char) : (Brace.turn? c).getD 0 =
    if c = '\x7b' then 1 else if c = '\x7d' then -1 else 0 := by
  unfold Brace.turn?
  split
  · rfl
  · split <;> rfl

/-- A character is passed over if some brace is open behind it. -/
theorem codeLength_cons {level next : Nat} {c : Char} (cs : List Char)
    (hnext : (next : Int) = level + (Brace.turn? c).getD 0) (hpos : 0 < next) :
    codeLength level (c :: cs) = (codeLength next cs).map (· + 1) := by
  rw [getD_turn?] at hnext
  rw [codeLength]
  by_cases hopen : c = '\x7b'
  · rw [if_pos hopen] at hnext ⊢
    obtain rfl : next = level + 1 := by omega
    rfl
  · rw [if_neg hopen] at hnext ⊢
    by_cases hclose : c = '\x7d'
    · rw [if_pos hclose] at hnext ⊢
      obtain rfl : next = level - 1 := by omega
      exact if_neg (by omega)
    · rw [if_neg hclose] at hnext ⊢
      obtain rfl : next = level := by omega
      rfl

/-- The end of some code stands behind the first text that leaves just one of the braces open. -/
theorem codeLength_eq_some_iff {level n : Nat} {cs : List Char} (hlevel : 0 < level) :
    codeLength level cs = some n ↔
      ∃ init rest, cs = init ++ '\x7d' :: rest ∧ n = init.length + 1 ∧ StaysOpen level init := by
  induction cs generalizing level n with
  | nil => simp [codeLength]
  | cons c cs ih =>
    by_cases hlast : c = '\x7d' ∧ level = 1
    · obtain ⟨rfl, rfl⟩ := hlast
      have hend : codeLength 1 ('\x7d' :: cs) = some 1 := rfl
      rw [hend, Option.some.injEq]
      constructor
      · rintro rfl
        exact ⟨[], cs, rfl, rfl, rfl⟩
      · rintro ⟨init, rest, hcs, rfl, hinit⟩
        cases init with
        | nil => rfl
        | cons d init =>
          obtain ⟨rfl, -⟩ := List.cons_eq_cons.1 hcs
          exact absurd hinit.2.one_le (by decide)
    · obtain ⟨next, hnext, hpos⟩ : ∃ next : Nat,
          (next : Int) = level + (Brace.turn? c).getD 0 ∧ 0 < next := by
        refine ⟨(level + (Brace.turn? c).getD 0).toNat, ?_⟩
        rw [getD_turn?]
        split
        · omega
        · split
          · have : level ≠ 1 := fun hone => hlast ⟨by assumption, hone⟩
            omega
          · omega
      rw [codeLength_cons cs hnext hpos, Option.map_eq_some_iff]
      constructor
      · rintro ⟨m, hm, rfl⟩
        obtain ⟨init, rest, rfl, rfl, hinit⟩ := (ih hpos).1 hm
        exact ⟨c :: init, rest, rfl, rfl, by omega, hnext ▸ hinit⟩
      · rintro ⟨init, rest, hcs, rfl, hinit⟩
        cases init with
        | nil => exact absurd ⟨(List.cons_eq_cons.1 hcs).1, Int.ofNat.inj hinit⟩ hlast
        | cons d init =>
          obtain ⟨rfl, rfl⟩ := List.cons_eq_cons.1 hcs
          exact ⟨_, (ih hpos).2 ⟨init, rest, rfl, rfl, hnext ▸ hinit.2⟩, rfl⟩

/-- The braces of quoted text and of templates do not mislead a count of all braces. -/
structure TextFits (bs : List Brace) : Prop where
  /-- Text never closes more than text before it and the code around it have left open. -/
  early : ∀ before, before <+: bs → before ≠ bs →
    0 ≤ Brace.net true before + Brace.net false before
  /-- Text closes what text opens. -/
  even : Brace.net false bs = 0

theorem sum_turn (bs : List Brace) :
    (bs.map Brace.turn).sum = Brace.net true bs + Brace.net false bs := by
  induction bs with
  | nil => rfl
  | cons b bs ih =>
    have hhead : b.turn = Brace.net true [b] + Brace.net false [b] := by
      obtain ⟨inCode, turn⟩ := b
      cases inCode <;> simp [Brace.net]
    rw [← List.singleton_append (l := bs), Brace.net_append, Brace.net_append, List.map_append,
      List.sum_append, ih, List.map_singleton, List.sum_singleton, hhead]
    omega

theorem textFits_iff {before : List Brace} (h : 1 + Brace.net true before = 1) :
    TextFits (before ++ [Brace.closing]) ↔
      1 + (before.map Brace.turn).sum = 1 ∧
        ∀ p, p <+: before.map Brace.turn → 1 ≤ 1 + p.sum := by
  have heven : Brace.net false (before ++ [Brace.closing]) = Brace.net false before := by
    rw [Brace.net_append]
    exact Int.add_zero _
  constructor
  · rintro ⟨hearly, htext⟩
    rw [heven] at htext
    refine ⟨by rw [sum_turn]; omega, fun p hp => ?_⟩
    obtain ⟨bs, hbs, rfl⟩ := List.prefix_map_iff.1 hp
    have hne : bs ≠ before ++ [Brace.closing] := by
      rintro rfl
      have hlength := hbs.length_le
      rw [List.length_append, List.length_singleton] at hlength
      omega
    have := hearly bs (List.prefix_append_of_prefix hbs) hne
    rw [sum_turn]
    omega
  · rintro ⟨htotal, hprefix⟩
    rw [sum_turn] at htotal
    refine ⟨fun bs hbs hne => ?_, by rw [heven]; omega⟩
    have hbs := (List.prefix_concat_iff.1 hbs).resolve_left hne
    have := hprefix _ (hbs.map Brace.turn)
    rw [sum_turn] at this
    omega

/-- The reader of class lists finds the end of an interpolation that a script reader finds just if
the braces of text fit, and then the whole of the interpolation is one atom of the class list. -/
theorem interpolation_ends_alike {cs : List Char} {n : Nat}
    (h : Script.Extent.ofInterpolation cs = ⟨true, n⟩) :
    (codeLength 1 cs = some n ↔ TextFits (Script.Extent.braces [.code] cs)) ∧
      (TextFits (Script.Extent.braces [.code] cs) →
        Quoting.atoms? ⟨'`', true⟩ ('$' :: '\x7b' :: cs) =
          (Quoting.atoms? ⟨'`', true⟩ (cs.drop n)).map fun (as, rest) =>
            (.interpolation (cs.take n) :: as, rest)) := by
  have hcloses : Script.Extent.Closes 1 cs n (Script.Extent.braces [.code] cs) :=
    Script.Extent.closes_braces h rfl
  have hends : codeLength 1 cs = some n ↔ TextFits (Script.Extent.braces [.code] cs) := by
    obtain ⟨init, rest, before, rfl, rfl, hbs, hmap, htotal, -⟩ := hcloses
    rw [hbs, textFits_iff htotal, hmap, ← staysOpen_iff, codeLength_eq_some_iff Nat.one_pos]
    constructor
    · rintro ⟨init', rest', hcs, hlength, hinit⟩
      obtain ⟨rfl, -⟩ := List.append_inj hcs (Nat.succ.inj hlength)
      exact hinit
    · exact fun hinit => ⟨init, rest, rfl, rfl, hinit⟩
  refine ⟨hends, fun hfits => ?_⟩
  have hlength : codeLength 1 (('\x7b' :: cs).drop 1) = some n := hends.2 hfits
  rw [Quoting.atoms?, if_neg (by decide), if_neg (by decide), if_neg (by decide),
    if_pos (by simp), hlength]
  rfl

/-- Quoted text and a template with a brace of its own, inside an interpolation. -/
def nestedCode : List Char := "f(`\x7b\x7d$\x7ba\x7d`, \"b\")\x7d c`".toList

theorem interpolation_ends_alike_nested :
    Script.Extent.ofInterpolation nestedCode = ⟨true, 17⟩ ∧
      TextFits (Script.Extent.braces [.code] nestedCode) ∧
      Quoting.atoms? ⟨'`', true⟩ ('$' :: '\x7b' :: nestedCode) =
        (Quoting.atoms? ⟨'`', true⟩ (nestedCode.drop 17)).map fun (as, rest) =>
          (.interpolation (nestedCode.take 17) :: as, rest) := by
  have h : Script.Extent.ofInterpolation nestedCode = ⟨true, 17⟩ := by decide +kernel
  have hlength : codeLength 1 nestedCode = some 17 := by decide +kernel
  have hfits := (interpolation_ends_alike h).1.1 hlength
  exact ⟨h, hfits, (interpolation_ends_alike h).2 hfits⟩

/-- A closing brace in quoted text ends an interpolation too early, and the rest of that text is
taken for a class. -/
theorem interpolation_cut_in_text :
    Script.Extent.ofInterpolation "\"\x7d a\"\x7d b`".toList = ⟨true, 6⟩ ∧
      codeLength 1 "\"\x7d a\"\x7d b`".toList = some 2 ∧
      (Quoting.atoms? ⟨'`', true⟩ "$\x7b\"\x7d a\"\x7d b`".toList).map
          (fun (as, _) => piecesFrom 0 [] as) =
        some [.dynamic ⟨"$\x7b\"\x7d".toList, 0⟩, .name ⟨"a\"\x7d".toList, 5⟩, .name ⟨['b'], 9⟩] := by
  refine ⟨?_, ?_, ?_⟩ <;> decide +kernel

end Markup
end DesignTokens
