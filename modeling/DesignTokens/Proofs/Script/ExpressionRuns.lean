import DesignTokens.Proofs.Script.Slices
import DesignTokens.Proofs.Script.TreePaths
import Mathlib.Data.List.TakeWhile

/-! # The tokens of expressions

An expression takes up a run of tokens, and what stands directly inside of it takes up runs among
these tokens, one behind the other. -/
namespace DesignTokens.Script
open Text (Span)
open Nest

/-- The expressions directly inside of another one. -/
def Expr.children : Expr → List Expr
  | object _ members => members.map Member.value
  | array _ items => items
  | dynamic _ found => found
  | string .. | template .. | number .. => []

theorem Expr.holds_iff {e c : Expr} : Holds e c ↔ c ∈ e.children := by
  constructor
  · intro h
    cases h with
    | member h => exact List.mem_map_of_mem h
    | item h => exact h
    | found h => exact h
  · intro h
    cases e with
    | object span members =>
      obtain ⟨m, hm, rfl⟩ := List.mem_map.1 h
      exact .member hm
    | array span items => exact .item h
    | dynamic span found => exact .found h
    | _ => cases h

/-- The tokens begin where the span does and end where it does. -/
structure Reaches (ts : List Token) (span : Span) : Prop where
  start : ts.head?.map (fun t => t.span.start) = some span.start
  stop : ts.getLast?.map (fun t => t.span.stop) = some span.stop

/-- An expression takes up a whole run of tokens. What it holds stands in the tokens `inside`. -/
inductive Occupies : (run : List Token) → Expr → (inside : List Token) → Prop
  | object {o c : Span} {inside : List Token} {members : List Member} (h : Balanced inside) :
      Occupies (⟨.opener .brace, o⟩ :: (inside ++ [⟨.closer .brace, c⟩]))
        (.object ⟨o.start, c.stop⟩ members) inside
  | array {o c : Span} {inside : List Token} {items : List Expr} (h : Balanced inside) :
      Occupies (⟨.opener .bracket, o⟩ :: (inside ++ [⟨.closer .bracket, c⟩]))
        (.array ⟨o.start, c.stop⟩ items) inside
  | constant {t : Token} {e : Expr} (h : (Nest.token t).constant? = some e) : Occupies [t] e []
  | dynamic {run : List Token} {span : Span} {found : List Expr} (h : Reaches run span) :
      Occupies run (.dynamic span found) run

/-- Expressions take up runs of the tokens, one behind the other, and so do the expressions inside
of each. -/
inductive Carries : List Token → List Expr → Prop
  | nil (ts : List Token) : Carries ts []
  | cons (before : List Token) {run inside after : List Token} {e : Expr} {es : List Expr}
      (he : Occupies run e inside) (hi : Carries inside e.children) (h : Carries after es) :
      Carries (before ++ (run ++ after)) (e :: es)

/-- An expression takes up the run, and all that is inside of it has its place there. -/
def StandsOn (run : List Token) (e : Expr) : Prop :=
  ∃ inside, Occupies run e inside ∧ Carries inside e.children

/-- Where tokens end, they also end with others in front. -/
theorem stop_append {ts : List Token} {stop : Nat} (before : List Token)
    (h : ts.getLast?.map (fun t => t.span.stop) = some stop) :
    (before ++ ts).getLast?.map (fun t => t.span.stop) = some stop := by
  have hne : ts ≠ [] := by
    intro hnil
    rw [hnil] at h
    cases h
  rw [List.getLast?_append_of_ne_nil _ hne, h]

theorem of_constant? {t : Token} {e : Expr} (h : (Nest.token t).constant? = some e) :
    e.span = t.span ∧ e.children = [] ∧ e.isContainer = false := by
  obtain ⟨kind, span⟩ := t
  cases kind with
  | string value =>
    cases h
    exact ⟨rfl, rfl, rfl⟩
  | number value =>
    cases h
    exact ⟨rfl, rfl, rfl⟩
  | template value =>
    cases value <;> cases h
    exact ⟨rfl, rfl, rfl⟩
  | _ => cases h

theorem reaches_group (d : Delimiter) (o c : Span) (inside : List Token) :
    Reaches (⟨.opener d, o⟩ :: (inside ++ [⟨.closer d, c⟩])) ⟨o.start, c.stop⟩ :=
  ⟨rfl, by rw [← List.cons_append, List.getLast?_concat, Option.map_some]⟩

theorem Occupies.reaches {run inside : List Token} {e : Expr} (h : Occupies run e inside) :
    Reaches run e.span := by
  cases h with
  | object h => exact reaches_group _ _ _ _
  | array h => exact reaches_group _ _ _ _
  | constant h =>
    rw [(of_constant? h).1]
    exact ⟨rfl, rfl⟩
  | dynamic h => exact h

namespace Carries
variable {xs ys ts : List Token} {es es' : List Expr} {e : Expr}

theorem append_left (xs : List Token) (h : Carries ts es) : Carries (xs ++ ts) es := by
  cases h with
  | nil => exact .nil _
  | cons before he hi h =>
    rw [← List.append_assoc]
    exact .cons (xs ++ before) he hi h

theorem append (h : Carries xs es) (h' : Carries ys es') : Carries (xs ++ ys) (es ++ es') := by
  induction h with
  | nil ts => exact h'.append_left ts
  | cons before he hi _ _ ih =>
    rw [List.append_assoc, List.append_assoc]
    exact .cons before he hi ih

theorem append_right (h : Carries xs es) (ys : List Token) : Carries (xs ++ ys) es := by
  simpa using h.append (.nil ys)

theorem cons_token (t : Token) (h : Carries ts es) : Carries (t :: ts) es := h.append_left [t]

end Carries

namespace StandsOn
variable {run : List Token} {e : Expr}

theorem reaches (h : StandsOn run e) : Reaches run e.span := h.choose_spec.1.reaches

theorem carries (h : StandsOn run e) : Carries run [e] := by
  obtain ⟨inside, he, hi⟩ := h
  simpa using Carries.cons [] he hi (.nil [])

theorem constant {t : Token} (h : (Nest.token t).constant? = some e) : StandsOn [t] e := by
  refine ⟨[], .constant h, ?_⟩
  rw [(of_constant? h).2.1]
  exact .nil []

theorem dynamic {span : Span} {found : List Expr} (h : Reaches run span)
    (hf : Carries run found) : StandsOn run (.dynamic span found) :=
  ⟨run, .dynamic h, hf⟩

end StandsOn

/-- Expressions that stand in some of the runs between commas, each in a run of its own. -/
theorem Cut.carries {stop ts : List Token} {runs kept : List (List Nest)} {es : List Expr}
    (h : Cut stop runs ts) (hkept : kept.Sublist runs)
    (hes : List.Forall₂ (fun run e => Carries (tokensOf run) [e]) kept es) : Carries ts es := by
  induction h generalizing kept es with
  | last run =>
    cases hkept with
    | cons _ hrest =>
      cases hrest
      cases hes
      exact .nil _
    | cons_cons _ hrest =>
      cases hrest
      cases hes with
      | cons he hnil =>
        cases hnil
        exact he.append_right stop
  | cons run span ts h ih =>
    cases hkept with
    | cons _ hrest => exact ((ih hrest hes).cons_token _).append_left _
    | cons_cons _ hrest =>
      cases hes with
      | cons he hes => exact he.append ((ih hrest hes).cons_token _)

private theorem dropEmptyLast_sublist (runs : List (List Nest)) :
    (dropEmptyLast runs).Sublist runs := by
  fun_induction dropEmptyLast runs with
  | case1 => exact .slnil
  | case2 => exact List.nil_sublist _
  | case3 slice rest _ ih => exact ih.cons_cons slice

namespace Nest

theorem start_tokens (n : Nest) (ts : List Token) :
    (n.tokens ++ ts).head?.map (fun t => t.span.start) = some n.span.start := by
  cases n <;> rfl

theorem stop_tokens (n : Nest) : n.tokens.getLast?.map (fun t => t.span.stop) = some n.span.stop := by
  cases n with
  | token t => rfl
  | group d o c body => exact (reaches_group d o c (tokensOf body)).stop

private theorem reaches_tokens (n : Nest) : Reaches n.tokens n.span := by
  have h := n.start_tokens []
  rw [List.append_nil] at h
  exact ⟨h, n.stop_tokens⟩

private theorem stop_tokensOf {run : List Nest} {last : Nest} (h : run.getLast? = some last) :
    (tokensOf run).getLast?.map (fun t => t.span.stop) = some last.span.stop := by
  obtain ⟨before, rfl⟩ := List.getLast?_eq_some_iff.1 h
  rw [tokensOf_append, tokensOf_cons, tokensOf_nil, List.append_nil]
  exact stop_append _ last.stop_tokens

end Nest

namespace Reading
open Nest (weight weights slices slicesWeight dropEmptyLast weight_pos weights_cons)

/-- What each of some runs gives. -/
theorem cons_forall₂ {α : Type} {P : List Nest → α → Prop} {run : List Nest}
    {runs : List (List Nest)} {r : Reading α} {s : Reading (List α)} (h : Yields (P run) r)
    (hs : Yields (List.Forall₂ P runs) s) : Yields (List.Forall₂ P (run :: runs)) (r.cons s) := by
  cases r with
  | error failure => exact .error failure
  | ok first => exact hs.map fun others hothers => .cons (h first rfl) hothers

theorem both_carries {xs ys : List Token} {p q : Except Nat (List Expr)}
    (hp : Yields (Carries xs) p) (hq : Yields (Carries ys) q) :
    Yields (Carries (xs ++ ys)) (both p q) := by
  cases p with
  | error start => exact .error start
  | ok inside =>
    cases q with
    | error start => exact .error start
    | ok others => exact .ok ((hp inside rfl).append (hq others rfl))

mutual

theorem object_stands (d : Nat) (o c : Span) (body : List Nest) (hp : AreProper body) :
    Yields (StandsOn (Nest.group .brace o c body).tokens) (object d o c body) := by
  by_cases hd : d ≤ maxNesting
  · rw [object_of_le hd]
    have hruns : ∀ run ∈ dropEmptyLast (slices body), AreProper run := fun run hr =>
      (isItem_of_mem_slices hp run (mem_of_mem_dropEmptyLast hr)).proper
    refine (members_stand d _ hruns).map fun ms hms => ?_
    refine ⟨tokensOf body, .object (balanced_tokensOf body hp), ?_⟩
    have hcut := cut_slices body []
    rw [List.append_nil] at hcut
    exact hcut.carries (dropEmptyLast_sublist _) (List.forall₂_map_right_iff.2 hms)
  · rw [object_of_lt (Nat.not_le.1 hd)]
    exact .error _
termination_by 8 * (weights body + 1) + 5
decreasing_by
  have := Nest.slicesWeight_dropEmptyLast_le (slices body)
  rw [Nest.slicesWeight_slices] at this
  omega

theorem members_stand (d : Nat) (runs : List (List Nest)) (hp : ∀ run ∈ runs, AreProper run) :
    Yields (List.Forall₂ (fun run (m : Member) => Carries (tokensOf run) [m.value]) runs)
      (members d runs) := by
  match runs with
  | [] =>
    rw [members_nil]
    exact .ok .nil
  | run :: rest =>
    obtain ⟨hrun, hrest⟩ := List.forall_mem_cons.1 hp
    rw [members_cons]
    exact cons_forall₂ (member_stands d run hrun) (members_stand d rest hrest)
termination_by 8 * slicesWeight runs + 4
decreasing_by
  all_goals
    simp only [slicesWeight]
    omega

theorem member_stands (d : Nat) (run : List Nest) (hp : AreProper run) :
    Yields (fun m : Member => Carries (tokensOf run) [m.value]) (member d run) := by
  match run with
  | [] =>
    rw [member_nil]
    exact .error _
  | first :: rest =>
    obtain ⟨hfirst, hrest⟩ := (areProper_cons first rest).1 hp
    by_cases hs : first.isKind .spread
    · rw [member_spread hs]
      exact (value_stands d rest hrest).map fun _ he => he.carries.append_left _
    have hs : first.isKind .spread = false := by simpa using hs
    cases hkey : first.key? with
    | none =>
      rw [member_keyless hs hkey]
      exact .error _
    | some key =>
      match rest with
      | [] =>
        rw [member_single hs hkey]
        split
        · exact .ok ((StandsOn.dynamic first.reaches_tokens (.nil _)).carries.append_right _)
        · exact .error _
      | next :: more =>
        have hmore := ((areProper_cons next more).1 hrest).2
        by_cases hc : next.isKind .colon
        · rw [member_pair hs hkey hc]
          exact (value_stands d more hmore).map fun _ he =>
            (he.carries.append_left _).append_left _
        have hc : next.isKind .colon = false := by simpa using hc
        by_cases hg : next.isGroup .parenthesis
        · rw [member_method hs hkey hc hg]
          split
          · refine (dynamic_stands d next.span.start more hmore).map fun e he => ?_
            exact (he next.tokens (next.start_tokens _)).carries.append_left _
          · exact .error _
        · have hg : next.isGroup .parenthesis = false := by simpa using hg
          rw [member_other hs hkey hc hg]
          exact .error _
termination_by 8 * (weights run + 1) + 3
decreasing_by
  all_goals
    have := weight_pos first
    simp only [weights_cons]
    omega

theorem array_stands (d : Nat) (o c : Span) (body : List Nest) (hp : AreProper body) :
    Yields (StandsOn (Nest.group .bracket o c body).tokens) (array d o c body) := by
  by_cases hd : d ≤ maxNesting
  · rw [array_of_le hd]
    have hruns : ∀ run ∈ (slices body).filter fun run => !run.isEmpty, AreProper run :=
      fun run hr => (isItem_of_mem_slices hp run (List.mem_of_mem_filter hr)).proper
    refine (elements_stand d _ hruns).map fun es hes => ?_
    refine ⟨tokensOf body, .array (balanced_tokensOf body hp), ?_⟩
    have hcut := cut_slices body []
    rw [List.append_nil] at hcut
    exact hcut.carries List.filter_sublist hes
  · rw [array_of_lt (Nat.not_le.1 hd)]
    exact .error _
termination_by 8 * (weights body + 1) + 5
decreasing_by
  have := Nest.slicesWeight_filter_le (fun run => !run.isEmpty) (slices body)
  rw [Nest.slicesWeight_slices] at this
  omega

theorem elements_stand (d : Nat) (runs : List (List Nest)) (hp : ∀ run ∈ runs, AreProper run) :
    Yields (List.Forall₂ (fun run e => Carries (tokensOf run) [e]) runs) (elements d runs) := by
  match runs with
  | [] =>
    rw [elements_nil]
    exact .ok .nil
  | run :: rest =>
    obtain ⟨hrun, hrest⟩ := List.forall_mem_cons.1 hp
    rw [elements_cons]
    exact cons_forall₂ (element_stands d run hrun) (elements_stand d rest hrest)
termination_by 8 * slicesWeight runs + 4
decreasing_by
  all_goals
    simp only [slicesWeight]
    omega

theorem element_stands (d : Nat) (run : List Nest) (hp : AreProper run) :
    Yields (fun e => Carries (tokensOf run) [e]) (element d run) := by
  match run with
  | [] =>
    rw [element]
    exact .error _
  | first :: rest =>
    rw [element]
    split
    · refine (value_stands d rest ((areProper_cons first rest).1 hp).2).map fun inner hinner => ?_
      have hreaches : Reaches (tokensOf (first :: rest)) ⟨first.span.start, inner.span.stop⟩ :=
        ⟨first.start_tokens _, stop_append first.tokens hinner.reaches.stop⟩
      exact (StandsOn.dynamic hreaches (hinner.carries.append_left _)).carries
    · exact fun e he => (value_stands d (first :: rest) hp e he).carries
termination_by 8 * (weights run + 1) + 3
decreasing_by
  all_goals
    have := weight_pos first
    simp only [weights_cons]
    omega

theorem value_stands (d : Nat) (run : List Nest) (hp : AreProper run) :
    Yields (StandsOn (tokensOf run)) (value d run) := by
  match run with
  | [] =>
    rw [value]
    exact .error _
  | first :: rest =>
    have hl := literal_stands d first ((areProper_cons first rest).1 hp).1
    have hdyn : Yields (StandsOn (tokensOf (first :: rest)))
        (dynamic d first.span.start (first :: rest)) := fun e he =>
      dynamic_stands d first.span.start (first :: rest) hp e he [] (first.start_tokens _)
    rw [value]
    split
    · exact .error _
    · exact hdyn
    · rename_i expr he
      split
      · rename_i hrest
        obtain rfl : rest = [] := by simpa using hrest
        refine .ok ?_
        rw [tokensOf_cons, tokensOf_nil, List.append_nil]
        exact hl expr he
      · exact hdyn
termination_by 8 * (weights run + 1) + 2
decreasing_by
  all_goals
    have := weight_pos first
    simp only [weights_cons]
    omega

theorem literal_stands (d : Nat) (n : Nest) (hp : n.IsProper) :
    Yields (StandsOn n.tokens) (literal d n) := by
  match n with
  | .token t =>
    rw [literal_token]
    split
    · exact .ok (.constant ‹_›)
    · exact .error _
  | .group .brace o c body =>
    rw [literal]
    exact object_stands (d + 1) o c body (by simpa using hp)
  | .group .bracket o c body =>
    rw [literal]
    exact array_stands (d + 1) o c body (by simpa using hp)
  | .group .parenthesis o c body =>
    rw [literal_parenthesis]
    exact .error _
termination_by 8 * weight n + 6
decreasing_by
  all_goals
    simp only [weight]
    omega

/-- A run of unknown value begins where it is said to, be it with tokens in front of the run. -/
theorem dynamic_stands (d start : Nat) (run : List Nest) (hp : AreProper run) :
    Yields (fun e => ∀ before : List Token,
      (before ++ tokensOf run).head?.map (fun t => t.span.start) = some start →
        StandsOn (before ++ tokensOf run) e) (dynamic d start run) := by
  have hsub : AreProper (run.takeWhile fun n => !n.isKind .semicolon) :=
    (areProper_iff _).2 fun n hn => (areProper_iff run).1 hp n (List.takeWhile_subset _ hn)
  have hf := found_stand (d + 1) (run.takeWhile fun n => !n.isKind .semicolon) hsub
  rw [dynamic]
  split
  · exact .error _
  · rename_i last hlast
    split
    · exact .error _
    · rename_i objects ho
      split
      · exact .error _
      · rename_i hany
        have hall : run.takeWhile (fun n => !n.isKind .semicolon) = run := by
          simpa using hany
        rw [hall] at hf ho
        exact .ok fun before hstart =>
          .dynamic ⟨hstart, stop_append before (stop_tokensOf hlast)⟩
            ((hf objects ho).append_left before)
termination_by 8 * (weights run + 1) + 1
decreasing_by
  have := weights_takeWhile_le (fun n => !n.isKind .semicolon) run
  omega

theorem found_stand (d : Nat) (ns : List Nest) :
    AreProper ns → Yields (Carries (tokensOf ns)) (found d ns) := by
  match ns with
  | [] =>
    intro _
    rw [found_nil]
    exact .ok (.nil _)
  | .token t :: rest =>
    intro hp
    rw [found_cons, found_token]
    exact both_carries (.ok (.nil _)) (found_stand d rest ((areProper_cons _ rest).1 hp).2)
  | .group delimiter o c body :: rest =>
    intro hp
    obtain ⟨hgroup, hrest⟩ := (areProper_cons _ rest).1 hp
    have hbody : AreProper body := by simpa using hgroup
    have hb : Yields (Carries (Nest.group delimiter o c body).tokens) (found d body) := fun es hes =>
      ((found_stand d body hbody es hes).append_right _).cons_token _
    have ho := object_stands d o c body hbody
    rw [found_cons, found_group]
    refine both_carries ?_ (found_stand d rest hrest)
    split
    · rename_i hbrace
      subst hbrace
      split
      · rename_i expr he
        exact .ok (ho expr he).carries
      · exact hb
      · exact .error _
    · exact hb
termination_by 8 * (weights ns + 1)
decreasing_by
  all_goals
    simp only [weights_cons, weight]
    omega

end

end Reading
end DesignTokens.Script
