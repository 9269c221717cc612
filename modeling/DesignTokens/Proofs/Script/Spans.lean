import DesignTokens.Proofs.Script.Accepted
import DesignTokens.Proofs.Script.ExpressionRuns
import DesignTokens.Proofs.Script.Tiling

/-! # The places of expressions

Every expression of a document stands between two tokens, inside of the one that holds it and behind
the ones before it. An object or an array reaches from its opening delimiter to the partner. -/
namespace DesignTokens.Script
open Text (Span utf8Length utf8Length_append)
open Nest (AreProper tokensOf)

namespace Cuts
variable {before cs : List Char} {ts : List Token}

theorem le_start (h : Cuts before cs ts) : ∀ t ∈ ts, utf8Length before ≤ t.span.start := by
  induction h with
  | done => simp
  | token ht hk h ih =>
    rw [utf8Length_append] at ih
    rw [List.forall_mem_cons]
    exact ⟨Nat.le_refl _, fun t ht => Nat.le_trans (Nat.le_add_right _ _) (ih t ht)⟩

theorem ordered (h : Cuts before cs ts) :
    ts.Pairwise fun t u => t.span.stop ≤ u.span.start := by
  induction h with
  | done => exact List.pairwise_singleton _ _
  | token ht hk h ih => exact List.pairwise_cons.2 ⟨h.le_start, ih⟩

end Cuts

/-- Tokens that have a text each, one behind the other. -/
structure AreApart (ts : List Token) : Prop where
  progress : ∀ t ∈ ts, t.span.start < t.span.stop
  ordered : ts.Pairwise fun t u => t.span.stop ≤ u.span.start

theorem AreApart.of_infix {ts us : List Token} (h : AreApart ts) (hus : us <:+: ts) :
    AreApart us :=
  ⟨fun t ht => h.progress t (hus.subset ht), h.ordered.sublist hus.sublist⟩

section
variable {source : String} {ts : List Token}

theorem mem_dropLast_lex {rule : SlashRule} {t : Token} (ht : t ∈ lex rule source)
    (hk : t.kind ≠ .endOfText) : t ∈ (lex rule source).dropLast := by
  rw [← List.dropLast_append_getLast? _ (tiles_lex rule source).last, List.mem_append,
    List.mem_singleton] at ht
  rcases ht with ht | rfl
  · exact ht
  · exact absurd rfl hk

theorem mem_lex_of_tokens (h : tokens source = .ok ts) {t : Token} (ht : t ∈ ts) :
    t ∈ (lex .byContext source).dropLast := by
  obtain ⟨rfl, -, -⟩ := (tokens_eq_ok_iff source ts).1 h
  obtain ⟨hmem, hkind⟩ := List.mem_filter.1 ht
  refine mem_dropLast_lex hmem fun hk => ?_
  simp [hk] at hkind

theorem areApart_of_tokens (h : tokens source = .ok ts) : AreApart ts := by
  refine ⟨fun t ht => (tiles_lex .byContext source).progress t (mem_lex_of_tokens h ht), ?_⟩
  obtain ⟨rfl, -, -⟩ := (tokens_eq_ok_iff source ts).1 h
  exact (cuts_lexFrom .byContext none [] source.toList).ordered.sublist List.filter_sublist

private theorem stop_le_of_tokens (h : tokens source = .ok ts) {t : Token} (ht : t ∈ ts) :
    t.span.stop ≤ source.utf8ByteSize := by
  have hmem := List.mem_of_mem_dropLast (mem_lex_of_tokens h ht)
  exact ((tiles_lex .byContext source).boundaries t hmem).2.le_utf8ByteSize

end

namespace Reaches
variable {run : List Token} {span : Span}

theorem exists_ends (h : Reaches run span) :
    ∃ t ∈ run, ∃ u ∈ run, span = ⟨t.span.start, u.span.stop⟩ := by
  obtain ⟨t, ht, hstart⟩ := Option.map_eq_some_iff.1 h.start
  obtain ⟨u, hu, hstop⟩ := Option.map_eq_some_iff.1 h.stop
  exact ⟨t, List.mem_of_head? ht, u, List.mem_of_getLast? hu, by rw [hstart, hstop]⟩

theorem bounds (h : Reaches run span) (ha : AreApart run) :
    ∀ t ∈ run, span.start ≤ t.span.start ∧ t.span.stop ≤ span.stop := by
  intro t ht
  obtain ⟨first, hfirst, hstart⟩ := Option.map_eq_some_iff.1 h.start
  obtain ⟨last, hlast, hstop⟩ := Option.map_eq_some_iff.1 h.stop
  rw [← hstart, ← hstop]
  constructor
  · obtain ⟨rest, rfl⟩ := List.head?_eq_some_iff.1 hfirst
    rcases List.mem_cons.1 ht with rfl | hrest
    · exact Nat.le_refl _
    · have hlt := ha.progress first List.mem_cons_self
      have hle := List.rel_of_pairwise_cons ha.ordered hrest
      omega
  · obtain ⟨before, rfl⟩ := List.getLast?_eq_some_iff.1 hlast
    rcases List.mem_append.1 ht with hbefore | ht
    · have hlt := ha.progress last (by simp)
      have hle := (List.pairwise_append.1 ha.ordered).2.2 t hbefore last (by simp)
      omega
    · rw [List.mem_singleton.1 ht]

theorem progress (h : Reaches run span) (ha : AreApart run) : span.start < span.stop := by
  obtain ⟨t, ht, u, hu, rfl⟩ := h.exists_ends
  exact Nat.lt_of_lt_of_le (ha.progress t ht) (h.bounds ha t ht).2

end Reaches

theorem Occupies.inside_infix {run inside : List Token} {e : Expr} (h : Occupies run e inside) :
    inside <:+: run := by
  cases h with
  | @object o c inside members h => exact ⟨[⟨.opener .brace, o⟩], [⟨.closer .brace, c⟩], rfl⟩
  | @array o c inside items h => exact ⟨[⟨.opener .bracket, o⟩], [⟨.closer .bracket, c⟩], rfl⟩
  | constant h => exact List.nil_infix
  | dynamic h => exact List.infix_rfl

/-- Nothing stands in front of an opening delimiter that it opens. -/
theorem Occupies.behind_opening {run inside : List Token} {e : Expr} (h : Occupies run e inside)
    (ha : AreApart run) (he : e.isContainer) : ∀ t ∈ inside, e.span.start < t.span.start := by
  have hopening {o : Token} {more : List Token} (ha : AreApart (o :: more)) :
      ∀ t ∈ more, o.span.start < t.span.start := fun t ht =>
    Nat.lt_of_lt_of_le (ha.progress o List.mem_cons_self) (List.rel_of_pairwise_cons ha.ordered ht)
  cases h with
  | object h => exact fun t ht => hopening ha t (List.mem_append_left _ ht)
  | array h => exact fun t ht => hopening ha t (List.mem_append_left _ ht)
  | constant h => exact nofun
  | dynamic h => cases he

namespace Carries
variable {ts : List Token} {es : List Expr}

theorem exists_run (h : Carries ts es) {e : Expr} (he : e ∈ es) :
    ∃ run, run <:+: ts ∧ StandsOn run e := by
  induction h with
  | nil => cases he
  | @cons before run inside after e' es hoccupies hinside h _ ih =>
    rcases List.mem_cons.1 he with rfl | he
    · exact ⟨run, ⟨before, after, by simp⟩, inside, hoccupies, hinside⟩
    · obtain ⟨run', hrun', hstands⟩ := ih he
      exact ⟨run', hrun'.trans ⟨before ++ run, [], by simp⟩, hstands⟩

theorem exists_ends (h : Carries ts es) {e : Expr} (he : e ∈ es) :
    ∃ t ∈ ts, ∃ u ∈ ts, e.span = ⟨t.span.start, u.span.stop⟩ := by
  obtain ⟨run, hrun, hstands⟩ := h.exists_run he
  obtain ⟨t, ht, u, hu, hspan⟩ := hstands.reaches.exists_ends
  exact ⟨t, hrun.subset ht, u, hrun.subset hu, hspan⟩

theorem ordered (h : Carries ts es) (ha : AreApart ts) :
    es.Pairwise fun e f => e.span.stop ≤ f.span.start := by
  induction h with
  | nil => exact .nil
  | @cons before run inside after e es hoccupies _ h _ ih =>
    have hrest : AreApart (run ++ after) := ha.of_infix ⟨before, [], by simp⟩
    refine List.pairwise_cons.2 ⟨fun f hf => ?_, ih (hrest.of_infix ⟨run, [], by simp⟩)⟩
    obtain ⟨t, ht, u, hu, he⟩ := hoccupies.reaches.exists_ends
    obtain ⟨t', ht', u', hu', hf'⟩ := h.exists_ends hf
    rw [he, hf']
    exact (List.pairwise_append.1 hrest.ordered).2.2 u hu t' ht'

end Carries

/-- The span reaches from an opening delimiter to the end of its partner. -/
def Delimits (ts : List Token) (d : Delimiter) (span : Span) : Prop :=
  ∃ before o body c after, ts = before ++ ⟨.opener d, o⟩ :: (body ++ ⟨.closer d, c⟩ :: after) ∧
    Balanced body ∧ span = ⟨o.start, c.stop⟩

/-- An expression has its place among the tokens of a script. -/
structure Expr.PlacedIn (ts : List Token) (e : Expr) : Prop where
  ends : ∃ t ∈ ts, ∃ u ∈ ts, e.span = ⟨t.span.start, u.span.stop⟩
  progress : e.span.start < e.span.stop
  inside : ∀ c ∈ e.children, e.span.start ≤ c.span.start ∧ c.span.stop ≤ e.span.stop
  behindOpening : e.isContainer → ∀ c ∈ e.children, e.span.start < c.span.start
  ordered : e.children.Pairwise fun c d => c.span.stop ≤ d.span.start
  braces : ∀ span members, e = .object span members → Delimits ts .brace span
  brackets : ∀ span items, e = .array span items → Delimits ts .bracket span

/-- An expression takes up some tokens of a script. -/
def Expr.IsPart (ts : List Token) (e : Expr) : Prop := ∃ run, run <:+: ts ∧ StandsOn run e

namespace Expr.IsPart
variable {ts : List Token} {e c : Expr}

theorem placedIn (h : e.IsPart ts) (ha : AreApart ts) : e.PlacedIn ts := by
  obtain ⟨run, hrun, hstands⟩ := h
  obtain ⟨inside, hoccupies, hinside⟩ := hstands
  have harun := ha.of_infix hrun
  have hreaches := hoccupies.reaches
  have hbounds := hreaches.bounds harun
  have hsub := hoccupies.inside_infix.subset
  obtain ⟨before, after, rfl⟩ := hrun
  constructor
  · obtain ⟨t, ht, u, hu, hspan⟩ := hreaches.exists_ends
    exact ⟨t, by simp [ht], u, by simp [hu], hspan⟩
  · exact hreaches.progress harun
  · intro c hc
    obtain ⟨t, ht, u, hu, hspan⟩ := hinside.exists_ends hc
    rw [hspan]
    exact ⟨(hbounds t (hsub ht)).1, (hbounds u (hsub hu)).2⟩
  · intro he c hc
    obtain ⟨t, ht, u, hu, hspan⟩ := hinside.exists_ends hc
    rw [hspan]
    exact hoccupies.behind_opening harun he t ht
  · exact hinside.ordered (harun.of_infix hoccupies.inside_infix)
  · rintro span members rfl
    cases hoccupies with
    | @object o c inside members h => exact ⟨before, o, inside, c, after, by simp, h, rfl⟩
    | constant h => cases (of_constant? h).2.2
  · rintro span items rfl
    cases hoccupies with
    | @array o c inside items h => exact ⟨before, o, inside, c, after, by simp, h, rfl⟩
    | constant h => cases (of_constant? h).2.2

/-- What is held by a part is a part. -/
theorem step (h : e.IsPart ts) (hc : Holds e c) : c.IsPart ts := by
  obtain ⟨run, hrun, inside, hoccupies, hinside⟩ := h
  obtain ⟨run', hrun', hstands⟩ := hinside.exists_run (holds_iff.1 hc)
  exact ⟨run', (hrun'.trans hoccupies.inside_infix).trans hrun, hstands⟩

theorem trans (h : e.IsPart ts) (hc : Relation.ReflTransGen Holds e c) : c.IsPart ts := by
  induction hc with
  | refl => exact h
  | tail _ hstep ih => exact ih.step hstep

end Expr.IsPart

theorem carries_of_document {source : String} {roots : List Expr}
    (h : document source = .ok roots) : ∃ ts, tokens source = .ok ts ∧ Carries ts roots := by
  obtain ⟨ts, hts, hroots⟩ := tokens_of_document h
  obtain ⟨ns, hp, rfl⟩ := exists_of_tokens hts
  rw [roots_eq_found hp] at hroots
  exact ⟨_, hts, Reading.found_stand 0 ns hp roots hroots⟩

/-- The roots of a document stand one behind the other, and every expression in them has its place
among the tokens. -/
theorem spans_nest {source : String} {roots : List Expr} (h : document source = .ok roots) :
    ∃ ts, tokens source = .ok ts ∧ roots.Pairwise (fun e f => e.span.stop ≤ f.span.start) ∧
      ∀ root ∈ roots, ∀ e, Relation.ReflTransGen Expr.Holds root e →
        e.PlacedIn ts ∧ e.span.stop ≤ source.utf8ByteSize := by
  obtain ⟨ts, hts, hcarries⟩ := carries_of_document h
  have ha := areApart_of_tokens hts
  refine ⟨ts, hts, hcarries.ordered ha, fun root hroot e he => ?_⟩
  have hpart : root.IsPart ts := hcarries.exists_run hroot
  have hplaced := (hpart.trans he).placedIn ha
  obtain ⟨t, ht, u, hu, hspan⟩ := hplaced.ends
  refine ⟨hplaced, ?_⟩
  rw [hspan]
  exact stop_le_of_tokens hts hu

/-- A method, and an item that is spread, between two roots. -/
theorem spans_nest_method : ∃ roots, document "{m() {}, a: [...{}]} {}" = .ok roots ∧
    roots.length = 2 ∧ ∃ ts, tokens "{m() {}, a: [...{}]} {}" = .ok ts ∧
      roots.Pairwise (fun e f => e.span.stop ≤ f.span.start) ∧
      ∀ root ∈ roots, ∀ e, Relation.ReflTransGen Expr.Holds root e →
        e.PlacedIn ts ∧ e.span.stop ≤ "{m() {}, a: [...{}]} {}".utf8ByteSize := by
  have hlength : (document "{m() {}, a: [...{}]} {}").map List.length = .ok 2 := by
    decide +kernel
  cases h : document "{m() {}, a: [...{}]} {}" with
  | error fault =>
    rw [h] at hlength
    cases hlength
  | ok roots =>
    rw [h] at hlength
    exact ⟨roots, rfl, Except.ok.inj hlength, spans_nest h⟩

end DesignTokens.Script
