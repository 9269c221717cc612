import DesignTokens.Proofs.Markup.Segments

/-! # Modes of reading a value

The characters of a value lead its reader from mode to mode, and a value is closed just if they lead
to the mode `closed`. What is between two blanks and has no braces leaves an open value as it is. -/
namespace DesignTokens.Markup
open Text (isBlank)

/-- How the next character of a value is read. -/
inductive Mode
  | text
  /-- Behind a backslash that escapes. -/
  | escape
  /-- Behind a dollar sign that a brace turns into an interpolation. -/
  | dollar
  | code (openBraces : Nat)
  | closed
  deriving DecidableEq

namespace Mode

/-- The mode behind a character that means nothing but itself. -/
def settle : Mode → Mode
  | escape | dollar => text
  | m => m

@[simp] theorem settle_settle (m : Mode) : m.settle.settle = m.settle := by
  cases m <;> rfl

@[simp] theorem settle_eq_closed {m : Mode} : m.settle = closed ↔ m = closed := by
  cases m <;> simp [settle]

end Mode

namespace Quoting
open Mode

def enter (q : Quoting) (c : Char) : Mode :=
  if c = q.quote then closed
  else if q.escapes && c = '\\' then escape
  else if q.quote = '`' && c = '$' then dollar
  else text

def step (q : Quoting) : Mode → Char → Mode
  | text, c => q.enter c
  | escape, _ => text
  | dollar, c => if c = '\x7b' then code 1 else q.enter c
  | code n, c =>
    if c = '\x7b' then code (n + 1)
    else if c = '\x7d' then if n ≤ 1 then text else code (n - 1)
    else code n
  | closed, _ => closed

/-- The mode that some text leads to. -/
def run (q : Quoting) (m : Mode) (cs : List Char) : Mode := cs.foldl q.step m

variable {q : Quoting} {m : Mode} {c : Char} {cs ds : List Char}

@[simp] theorem run_nil : q.run m [] = m := rfl

@[simp] theorem run_cons : q.run m (c :: cs) = q.run (q.step m c) cs := rfl

theorem run_append : q.run m (cs ++ ds) = q.run (q.run m cs) ds := List.foldl_append

/-- What a character of a value leads to. -/
theorem enter_cases (q : Quoting) (c : Char) :
    q.enter c = closed ∨ (q.enter c = escape ∧ c = '\\') ∨
      (q.enter c = dollar ∧ q.quote = '`' ∧ c = '$') ∨ q.enter c = text := by
  unfold enter
  split
  · exact .inl rfl
  · split
    · rename_i h
      exact .inr (.inl ⟨rfl, (by simpa using h : q.escapes = true ∧ c = '\\').2⟩)
    · split
      · rename_i h
        exact .inr (.inr (.inl ⟨rfl, by simpa using h⟩))
      · exact .inr (.inr (.inr rfl))

/-- A character that means nothing but itself, both in the quotes and in code. -/
structure IsNeutral (q : Quoting) (c : Char) : Prop where
  ne_quote : c ≠ q.quote
  ne_backslash : c ≠ '\\'
  ne_dollar : c ≠ '$'
  ne_open : c ≠ '\x7b'
  ne_close : c ≠ '\x7d'

theorem IsNeutral.enter (h : q.IsNeutral c) : q.enter c = text := by
  rw [Quoting.enter, if_neg h.ne_quote, if_neg (by simp [h.ne_backslash]),
    if_neg (by simp [h.ne_dollar])]

theorem IsNeutral.step (h : q.IsNeutral c) (m : Mode) : q.step m c = m.settle := by
  cases m with
  | text => exact h.enter
  | escape => rfl
  | dollar => exact (if_neg h.ne_open).trans h.enter
  | code n => exact (if_neg h.ne_open).trans (if_neg h.ne_close)
  | closed => rfl

private theorem isNeutral_of_isBlank (hquote : c ≠ q.quote) (hc : isBlank c = true) :
    q.IsNeutral c := by
  refine ⟨hquote, ?_, ?_, ?_, ?_⟩ <;> rintro rfl <;> exact absurd hc (by decide)

@[simp] theorem run_closed : q.run closed cs = closed := by
  induction cs with
  | nil => rfl
  | cons c cs ih => exact ih

theorem ne_closed_of_run (h : q.run m cs ≠ closed) : m ≠ closed := by
  rintro rfl
  exact h run_closed

private theorem run_code_of_some {n length : Nat} (h : codeLength n cs = some length) :
    q.run (code n) cs = q.run text (cs.drop length) := by
  fun_induction codeLength n cs generalizing length with
  | case1 => cases h
  | case2 n cs ih =>
    obtain ⟨length, hlength, rfl⟩ := Option.map_eq_some_iff.1 h
    exact ih hlength
  | case3 n cs hn =>
    cases h
    rw [run_cons, step, if_neg (by decide), if_pos rfl, if_pos hn]
    rfl
  | case4 n cs hbrace hn ih =>
    obtain ⟨length, hlength, rfl⟩ := Option.map_eq_some_iff.1 h
    rw [run_cons, step, if_neg hbrace, if_pos rfl, if_neg hn]
    exact ih hlength
  | case5 n c cs hopen hclose ih =>
    obtain ⟨length, hlength, rfl⟩ := Option.map_eq_some_iff.1 h
    rw [run_cons, step, if_neg hopen, if_neg hclose]
    exact ih hlength

private theorem run_code_of_none {n : Nat} (h : codeLength n cs = none) :
    q.run (code n) cs ≠ closed := by
  fun_induction codeLength n cs with
  | case1 => simp
  | case2 n cs ih => exact ih (Option.map_eq_none_iff.1 h)
  | case3 => cases h
  | case4 n cs hbrace hn ih =>
    rw [run_cons, step, if_neg hbrace, if_pos rfl, if_neg hn]
    exact ih (Option.map_eq_none_iff.1 h)
  | case5 n c cs hopen hclose ih =>
    rw [run_cons, step, if_neg hopen, if_neg hclose]
    exact ih (Option.map_eq_none_iff.1 h)

/-- A dollar sign by itself is text. -/
theorem run_dollar (h : cs.head? ≠ some '\x7b') :
    q.run dollar cs ≠ closed ↔ q.run text cs ≠ closed := by
  cases cs with
  | nil => simp
  | cons c cs =>
    have hc : c ≠ '\x7b' := fun hc => h (congrArg some hc)
    rw [run_cons, step, if_neg hc]
    rfl

theorem run_opening (hq : q.quote = '`') :
    q.run text ('$' :: '\x7b' :: cs) = q.run (code 1) cs := by
  have hdollar : q.step text '$' = dollar := by simp [step, enter, hq]
  rw [run_cons, hdollar, run_cons, step, if_pos rfl]

/-- A value is closed just if it leads out of the quotes. -/
theorem atoms?_eq_none_iff : q.atoms? cs = none ↔ q.run text cs ≠ closed := by
  fun_induction Quoting.atoms? q cs with
  | case1 => simp
  | case2 cs => simp [step, enter]
  | case3 c cs hquote hblank ih =>
    rw [Option.map_eq_none_iff, ih, run_cons, (isNeutral_of_isBlank hquote hblank).step]
    rfl
  | case4 c hquote _ hescapes =>
    simp [step, enter, hquote, hescapes]
  | case5 c hquote _ hescapes d cs ih =>
    have hc : q.step text c = escape := (if_neg hquote).trans (if_pos hescapes)
    rw [Option.map_eq_none_iff, ih, run_cons, hc]
    rfl
  | case6 c cs _ _ _ hopens hn =>
    obtain ⟨⟨hq, rfl⟩, hbrace⟩ : (q.quote = '`' ∧ c = '$') ∧ cs.head? = some '\x7b' := by
      simpa using hopens
    obtain ⟨inside, rfl⟩ := List.head?_eq_some_iff.1 hbrace
    rw [run_opening hq]
    simpa using run_code_of_none hn
  | case7 c cs _ _ _ hopens n hn ih =>
    obtain ⟨⟨hq, rfl⟩, hbrace⟩ : (q.quote = '`' ∧ c = '$') ∧ cs.head? = some '\x7b' := by
      simpa using hopens
    obtain ⟨inside, rfl⟩ := List.head?_eq_some_iff.1 hbrace
    have hrun : q.run (code 1) inside = q.run text (inside.drop n) := run_code_of_some hn
    rw [Option.map_eq_none_iff, ih, run_opening hq, hrun]
    rfl
  | case8 c cs hquote hblank hescapes hopens ih =>
    rw [Option.map_eq_none_iff, ih, run_cons, step, enter, if_neg hquote, if_neg hescapes]
    split
    · exact (run_dollar fun hbrace => hopens (by simp_all)).symm
    · rfl

/-- Interpolations are found in templates only. -/
def Admits (q : Quoting) : Mode → Prop
  | dollar | code _ => q.quote = '`'
  | _ => True

theorem admits_enter (q : Quoting) (c : Char) : q.Admits (q.enter c) := by
  rcases enter_cases q c with h | ⟨h, -⟩ | ⟨h, hq, -⟩ | h <;> rw [h]
  · exact trivial
  · exact trivial
  · exact hq
  · exact trivial

theorem Admits.step (hm : q.Admits m) (c : Char) : q.Admits (q.step m c) := by
  cases m with
  | text => exact admits_enter q c
  | escape => exact trivial
  | dollar =>
    rw [Quoting.step]
    split
    · exact hm
    · exact admits_enter q c
  | code n =>
    rw [Quoting.step]
    split
    · exact hm
    · split
      · split
        · exact trivial
        · exact hm
      · exact hm
  | closed => exact trivial

theorem Admits.run (hm : q.Admits m) (cs : List Char) : q.Admits (q.run m cs) := by
  induction cs generalizing m with
  | nil => exact hm
  | cons c cs ih => exact ih (hm.step c)

theorem Admits.settle (hm : q.Admits m) : q.Admits m.settle := by
  cases m <;> trivial

/-- A text that opens and closes no code, whatever a reader in these quotes takes for code. -/
def IsBraceless (q : Quoting) (cs : List Char) : Prop :=
  q.quote = '`' → ∀ c ∈ cs, c ≠ '\x7b' ∧ c ≠ '\x7d'

private theorem run_code_of_isBraceless {n : Nat} (hq : q.quote = '`') (h : q.IsBraceless cs) :
    q.run (code n) cs = code n := by
  induction cs with
  | nil => rfl
  | cons c cs ih =>
    obtain ⟨⟨hopen, hclose⟩, hcs⟩ := List.forall_mem_cons.1 (h hq)
    rw [run_cons, step, if_neg hopen, if_neg hclose]
    exact ih fun _ => hcs

private theorem enter_ne_code (q : Quoting) (c : Char) (n : Nat) : q.enter c ≠ code n := by
  rcases enter_cases q c with h | ⟨h, -⟩ | ⟨h, -⟩ | h <;> simp [h]

/-- Without braces there is no way into code. -/
theorem run_ne_code (hm : q.Admits m) (hcode : ∀ n, m ≠ code n) (h : q.IsBraceless cs) (n : Nat) :
    q.run m cs ≠ code n := by
  induction cs generalizing m with
  | nil => exact hcode n
  | cons c cs ih =>
    refine ih (hm.step c) (fun n => ?_) fun hq => (List.forall_mem_cons.1 (h hq)).2
    cases m with
    | text => exact enter_ne_code q c n
    | escape => simp [step]
    | dollar =>
      have hc : c ≠ '\x7b' := (h hm c List.mem_cons_self).1
      rw [step, if_neg hc]
      exact enter_ne_code q c n
    | code k => exact absurd rfl (hcode k)
    | closed => simp [step]

private theorem settle_run_of_isBraceless (hm : q.Admits m) (hsettled : m.settle = m)
    (h : q.IsBraceless cs) (hopen : q.run m cs ≠ closed) : (q.run m cs).settle = m := by
  cases m with
  | text =>
    have hcode := run_ne_code hm (by simp) h
    cases hrun : q.run text cs with
    | code n => exact absurd hrun (hcode n)
    | closed => exact absurd hrun hopen
    | _ => rfl
  | code n => rw [run_code_of_isBraceless hm h, hsettled]
  | closed => exact absurd run_closed hopen
  | escape | dollar => cases hsettled

/-- The mode behind some words that stand between blanks. -/
def runWords (q : Quoting) (m : Mode) (texts : List (List Char)) : Mode :=
  texts.foldl (fun m text => (q.run m text).settle) m

private theorem runWords_append {texts more : List (List Char)} :
    q.runWords m (texts ++ more) = q.runWords (q.runWords m texts) more := List.foldl_append

private theorem runWords_closed {texts : List (List Char)} : q.runWords closed texts = closed := by
  induction texts with
  | nil => rfl
  | cons text texts ih =>
    rw [runWords, List.foldl_cons, run_closed]
    exact ih

/-- Words without braces can be taken from a value that stays open. -/
theorem runWords_filter {α : Type} {text : α → List Char} {keep : α → Bool} {xs : List α}
    (hm : q.Admits m) (hsettled : m.settle = m)
    (hdrop : ∀ x ∈ xs, keep x = false → q.IsBraceless (text x))
    (hopen : q.runWords m (xs.map text) ≠ closed) :
    q.runWords m ((xs.filter keep).map text) = q.runWords m (xs.map text) := by
  induction xs generalizing m with
  | nil => rfl
  | cons x xs ih =>
    obtain ⟨hx, hxs⟩ := List.forall_mem_cons.1 hdrop
    have hrest := ih (hm.run (text x)).settle (settle_settle _) hxs hopen
    cases hkeep : keep x with
    | true =>
      rw [List.filter_cons_of_pos hkeep]
      exact hrest
    | false =>
      have hne : q.run m (text x) ≠ closed := by
        intro hclosed
        refine hopen ?_
        rw [runWords, List.map_cons, List.foldl_cons, hclosed]
        exact runWords_closed
      have hsame : (q.run m (text x)).settle = m :=
        settle_run_of_isBraceless hm hsettled (hx hkeep) hne
      rw [hsame] at hrest
      rw [List.filter_cons_of_neg (by simp [hkeep]), hrest, List.map_cons]
      exact congrArg (fun m => q.runWords m (xs.map text)) hsame.symm

/-- A value is left in the mode that its runs lead to, up to what its last character leaves open. -/
theorem settle_run_value {as run : List Atom} (hq : isQuote q.quote = true)
    (hblank : ∀ c, Atom.blank c ∈ as → isBlank c = true) (hm : m.settle = m) :
    (q.run m ((run.reverse ++ as).flatMap Atom.text)).settle =
      q.runWords m ((runsFrom run as).map (·.flatMap Atom.text)) := by
  have hend (m : Mode) (hm : m.settle = m) (run : List Atom) :
      (q.run m (run.flatMap Atom.text)).settle =
        q.runWords m ((endRun run).map (·.flatMap Atom.text)) := by
    unfold endRun
    split
    · simp_all [runWords]
    · rfl
  induction as generalizing run m with
  | nil =>
    rw [List.append_nil]
    exact hend m hm run.reverse
  | cons a as ih =>
    have htail : ∀ c, Atom.blank c ∈ as → isBlank c = true :=
      fun c hc => hblank c (List.mem_cons_of_mem a hc)
    rw [runsFrom]
    by_cases ha : a.isBlank = true
    · obtain ⟨c, rfl⟩ : ∃ c, a = .blank c := by cases a <;> simp_all [Atom.isBlank]
      have hc := hblank c List.mem_cons_self
      have hneutral : q.IsNeutral c := isNeutral_of_isBlank (ne_quote_of_isBlank hq hc) hc
      have hrest := @ih (q.run m (run.reverse.flatMap Atom.text)).settle [] htail (settle_settle _)
      rw [if_pos ha, List.map_append, runWords_append, ← hend m hm, ← hrest, List.flatMap_append,
        run_append, List.flatMap_cons, run_append]
      exact congrArg (fun m => (q.run m (as.flatMap Atom.text)).settle) (hneutral.step _)
    · have hrest := @ih m (a :: run) htail hm
      rw [if_neg ha]
      simpa using hrest

private theorem step_ne_escape (m : Mode) (hc : c ≠ '\\') : q.step m c ≠ escape := by
  have henter : q.enter c ≠ escape := by
    rcases enter_cases q c with h | ⟨-, h⟩ | ⟨h, -⟩ | h
    · simp [h]
    · exact absurd h hc
    · simp [h]
    · simp [h]
  cases m with
  | text => exact henter
  | escape => simp [step]
  | dollar =>
    rw [step]
    split
    · simp
    · exact henter
  | code n =>
    rw [step]
    split
    · simp
    · split
      · split <;> simp
      · simp
  | closed => simp [step]

private theorem run_concat_ne_escape (m : Mode) (cs : List Char) (hc : c ≠ '\\') :
    q.run m (cs ++ [c]) ≠ escape := by
  rw [run_append]
  exact step_ne_escape _ hc

/-- Behind an escaped character nothing is escaped. -/
theorem run_escaped_ne_escape (d : Char) (hm : m ≠ escape) : q.run m ['\\', d] ≠ escape := by
  by_cases hfirst : q.step m '\\' = escape
  · rw [run_cons, hfirst]
    simp [step]
  · by_cases hd : d = '\\'
    · have henter : q.enter '\\' = closed ∨ q.enter '\\' = escape ∨ q.enter '\\' = text := by
        rcases enter_cases q '\\' with h | ⟨h, -⟩ | ⟨-, -, h⟩ | h
        · exact .inl h
        · exact .inr (.inl h)
        · exact absurd h (by decide)
        · exact .inr (.inr h)
      have hstay (h : q.step m '\\' = q.enter '\\') :
          q.step (q.step m '\\') '\\' = q.step m '\\' := by
        rw [h] at hfirst ⊢
        rcases henter with hc | hc | hc
        · rw [hc, step]
        · exact absurd hc hfirst
        · rw [hc, step, hc]
      have hsame : q.step (q.step m '\\') '\\' = q.step m '\\' := by
        cases m with
        | text => exact hstay rfl
        | escape => exact absurd rfl hm
        | dollar => exact hstay rfl
        | code n => rfl
        | closed => rfl
      rwa [hd, run_cons, run_cons, run_nil, hsame]
    · exact step_ne_escape _ hd

/-- A value in which a backslash always escapes leaves none to a reader of a value around it. -/
theorem run_ne_escape {inner : Quoting} {as : List Atom} (hinner : inner.escapes = true)
    (h : inner.Spells as) (hm : m ≠ escape) : q.run m (as.flatMap Atom.text) ≠ escape := by
  induction as generalizing m with
  | nil => exact hm
  | cons a as ih =>
    have ha := (List.forall_mem_cons.1 h.fits).1
    rw [List.flatMap_cons, run_append]
    refine ih h.tail ?_
    cases a with
    | blank c =>
      refine step_ne_escape m ?_
      rintro rfl
      have hblank : isBlank '\\' = true := ha
      exact absurd hblank (by decide)
    | char c => exact step_ne_escape m (ha.2.2 hinner)
    | escaped d => exact run_escaped_ne_escape d hm
    | interpolation code =>
      obtain ⟨init, rest, hcode, hlength, -⟩ := (codeLength_eq_some_iff Nat.one_pos).1 ha.2
      obtain rfl : rest = [] := by
        have := congrArg List.length hcode
        rw [hlength, List.length_append, List.length_cons] at this
        exact List.length_eq_zero_iff.1 (by omega)
      rw [hcode]
      exact run_concat_ne_escape m ('$' :: '\x7b' :: init) (by decide)

private theorem ne_brace_of_isQuote (hc : isQuote c = true) : c ≠ '\x7b' ∧ c ≠ '\x7d' := by
  rcases eq_of_isQuote hc with rfl | rfl | rfl <;> decide

theorem isNeutral_of_isQuote (hquote : c ≠ q.quote) (hc : isQuote c = true) : q.IsNeutral c := by
  rcases eq_of_isQuote hc with rfl | rfl | rfl <;>
    exact ⟨hquote, by decide, by decide, by decide, by decide⟩

/-- A quote is read alike in two modes that differ in what the last character leaves open. -/
theorem step_quote_congr {m m' : Mode} (hc : isQuote c = true) (h : m.settle = m'.settle)
    (hescape : c = q.quote → m ≠ escape ∧ m' ≠ escape) : q.step m c = q.step m' c := by
  by_cases hquote : c = q.quote
  · obtain ⟨hm, hm'⟩ := hescape hquote
    subst hquote
    have hstep {m : Mode} (hm : m ≠ escape) : q.step m q.quote = q.step m.settle q.quote := by
      cases m with
      | escape => exact absurd rfl hm
      | dollar => exact if_neg (ne_brace_of_isQuote hc).1
      | _ => rfl
    rw [hstep hm, hstep hm', h]
  · have hneutral := isNeutral_of_isQuote hquote hc
    rw [hneutral.step, hneutral.step, h]

/-- A quote closes the value that it opened unless it stands in code. -/
theorem step_quote (hq : isQuote q.quote = true) (hm : m ≠ escape) :
    q.step m q.quote = closed ∨ ∃ n, m = code n ∧ q.step m q.quote = code n := by
  have henter : q.enter q.quote = closed := if_pos rfl
  obtain ⟨hopen, hclose⟩ := ne_brace_of_isQuote hq
  cases m with
  | text => exact .inl henter
  | escape => exact absurd rfl hm
  | dollar => exact .inl ((if_neg hopen).trans henter)
  | code n => exact .inr ⟨n, rfl, (if_neg hopen).trans (if_neg hclose)⟩
  | closed => exact .inl rfl

/-- A value with the quotes of the one around it begins in code only. -/
theorem run_lead {inner : Quoting} {name : String} {lead : List Char} (hm : q.Admits m)
    (h : IsLead name inner lead) (hopen : q.run m lead ≠ closed) :
    (q.run m lead).settle = q.run m lead ∧ (inner.quote = q.quote → inner.escapes = true) := by
  obtain ⟨front, c, rfl, hc⟩ := h.exists_last
  rw [run_append, run_cons, run_nil] at hopen ⊢
  by_cases hquote : inner.quote = q.quote
  · have hisQuote : isQuote q.quote = true := hquote ▸ h.isQuote
    rw [hquote] at hopen ⊢
    rcases step_quote hisQuote (run_concat_ne_escape m front hc) with hclosed | ⟨n, hcode, hstep⟩
    · exact absurd hclosed hopen
    · have htemplate : q.quote = '`' := by
        have hadmits := hm.run (front ++ [c])
        rwa [hcode] at hadmits
      rw [hstep]
      exact ⟨rfl, fun _ => h.escapes_of_template (hquote.trans htemplate)⟩
  · rw [(isNeutral_of_isQuote hquote h.isQuote).step]
    exact ⟨settle_settle _, fun hsame => absurd hsame hquote⟩

/-- Runs without braces can be taken from a value inside one that stays open. -/
theorem step_run_filter {inner : Quoting} {as : List Atom} {keep : List Atom → Bool}
    (hq : isQuote q.quote = true) (hinner : isQuote inner.quote = true)
    (hescapes : inner.quote = q.quote → inner.escapes = true) (h : inner.Spells as)
    (hm : q.Admits m) (hsettled : m.settle = m)
    (hdrop : ∀ r ∈ runs as, keep r = false → q.IsBraceless (r.flatMap Atom.text))
    (hopen : q.run m (as.flatMap Atom.text) ≠ closed) :
    q.step (q.run m ((ofRuns ((runs as).filter keep)).flatMap Atom.text)) inner.quote =
      q.step (q.run m (as.flatMap Atom.text)) inner.quote := by
  have hkept : inner.Spells (ofRuns ((runs as).filter keep)) :=
    .ofRuns fun r hr => h.of_mem_runs (List.mem_filter.1 hr).1
  have hblank {bs : List Atom} (hbs : inner.Spells bs) (c : Char) (hc : Atom.blank c ∈ bs) :
      isBlank c = true := hbs.fits (.blank c) hc
  have hall := @settle_run_value q m as [] hq (hblank h) hsettled
  have hsome := @settle_run_value q m _ [] hq (hblank hkept) hsettled
  rw [List.reverse_nil, List.nil_append] at hall hsome
  have hruns : runsFrom [] (ofRuns ((runs as).filter keep)) = (runs as).filter keep :=
    runs_ofRuns fun r hr => isRun_of_mem_runs (List.mem_filter.1 hr).1
  have hsettle : (q.run m ((ofRuns ((runs as).filter keep)).flatMap Atom.text)).settle =
      (q.run m (as.flatMap Atom.text)).settle := by
    rw [hsome, hall, hruns]
    exact runWords_filter hm hsettled hdrop fun hclosed =>
      hopen (settle_eq_closed.1 (hall.trans hclosed))
  refine step_quote_congr hinner hsettle fun hsame => ?_
  have hne : m ≠ escape := by
    rintro rfl
    cases hsettled
  exact ⟨run_ne_escape (hescapes hsame) hkept hne, run_ne_escape (hescapes hsame) h hne⟩

end Quoting
end DesignTokens.Markup
