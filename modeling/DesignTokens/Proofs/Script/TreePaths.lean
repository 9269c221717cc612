import DesignTokens.Proofs.Script.NestReading
import Mathlib.Data.List.Chain

/-! # Paths through the expressions that are read

An expression is a tree whose branches are the values of its members, its items, or what is found
in it. The limit on nesting bounds the objects and the arrays on every path from the root. -/
namespace DesignTokens.Script
open Text (Span)

namespace Expr

/-- The second expression stands directly inside the first. -/
inductive Holds : Expr → Expr → Prop
  | member {span : Span} {members : List Member} {m : Member} (h : m ∈ members) :
      Holds (object span members) m.value
  | item {span : Span} {items : List Expr} {e : Expr} (h : e ∈ items) : Holds (array span items) e
  | found {span : Span} {found : List Expr} {e : Expr} (h : e ∈ found) :
      Holds (dynamic span found) e

def isContainer : Expr → Bool
  | object _ _ | array _ _ => true
  | _ => false

/-- No path from the expression inwards goes through more objects and arrays than the limit. -/
def PathsWithin (limit : Nat) (e : Expr) : Prop :=
  ∀ path, List.IsChain Holds (e :: path) → (e :: path).countP isContainer ≤ limit

variable {limit : Nat}

theorem pathsWithin_of_holds {e : Expr} (h : ∀ c, Holds e c → PathsWithin limit c) :
    PathsWithin (limit + if e.isContainer then 1 else 0) e := by
  intro path hpath
  rw [List.countP_cons]
  apply Nat.add_le_add_right
  cases path with
  | nil => simp
  | cons c path =>
    obtain ⟨hc, hchain⟩ := List.isChain_cons_cons.1 hpath
    exact h c hc path hchain

private theorem pathsWithin_object {span : Span} {members : List Member}
    (h : ∀ m ∈ members, PathsWithin limit m.value) : PathsWithin (limit + 1) (object span members) := by
  apply pathsWithin_of_holds
  intro e he
  cases he with
  | member hm => exact h _ hm

private theorem pathsWithin_array {span : Span} {items : List Expr}
    (h : ∀ e ∈ items, PathsWithin limit e) : PathsWithin (limit + 1) (array span items) := by
  apply pathsWithin_of_holds
  intro e he
  cases he with
  | item hm => exact h _ hm

theorem pathsWithin_dynamic {span : Span} {found : List Expr}
    (h : ∀ e ∈ found, PathsWithin limit e) : PathsWithin limit (dynamic span found) := by
  refine pathsWithin_of_holds (e := dynamic span found) ?_
  intro e he
  cases he with
  | found hm => exact h _ hm

private theorem pathsWithin_constant {n : Nest} {e : Expr} (h : n.constant? = some e) :
    PathsWithin limit e := by
  have hleaf : e.isContainer = false ∧ ∀ c, ¬ Holds e c := by
    unfold Nest.constant? at h
    split at h
    all_goals cases h
    all_goals exact ⟨rfl, nofun⟩
  have hpaths : PathsWithin (limit + if e.isContainer then 1 else 0) e :=
    pathsWithin_of_holds fun c hc => (hleaf.2 c hc).elim
  simpa [hleaf.1] using hpaths

end Expr

/-- What the result gives, if it gives anything, has the property. -/
def Yields {ε α : Type} (P : α → Prop) (r : Except ε α) : Prop := ∀ a, r = .ok a → P a

namespace Yields
variable {ε α β : Type} {P : α → Prop}

theorem ok {a : α} (h : P a) : Yields P (.ok a : Except ε α) := fun _ he => Except.ok.inj he ▸ h

theorem error (e : ε) : Yields P (.error e : Except ε α) := nofun

theorem map {Q : β → Prop} {r : Except ε α} {f : α → β} (h : Yields P r) (hf : ∀ a, P a → Q (f a)) :
    Yields Q (r.map f) := by
  cases r with
  | error e => exact .error e
  | ok a => exact .ok (hf a (h a rfl))

theorem cons {r : Reading α} {s : Reading (List α)} (h : Yields P r)
    (hs : Yields (fun as => ∀ a ∈ as, P a) s) : Yields (fun as => ∀ a ∈ as, P a) (r.cons s) := by
  cases r with
  | error failure => exact .error failure
  | ok first =>
    refine hs.map fun others hothers => ?_
    simpa using ⟨h first rfl, hothers⟩

theorem both {p q : Except Nat (List Expr)} {P : Expr → Prop}
    (hp : Yields (fun es => ∀ e ∈ es, P e) p) (hq : Yields (fun es => ∀ e ∈ es, P e) q) :
    Yields (fun es => ∀ e ∈ es, P e) (Reading.both p q) := by
  cases p with
  | error start => exact .error start
  | ok inside =>
    cases q with
    | error start => exact .error start
    | ok others =>
      refine .ok fun e he => ?_
      rcases List.mem_append.1 he with he | he
      · exact hp inside rfl e he
      · exact hq others rfl e he

end Yields

-- What is read at depth `d` is inside of `d + 1` literals, so `maxNesting - d` more are left for
-- every path through it, and one more for a literal that is itself at depth `d`.
namespace Reading
open Nest (weight weights slices slicesWeight dropEmptyLast weight_pos weights_cons)
open DesignTokens.Script.Expr (PathsWithin)

mutual

theorem object_paths (d : Nat) (o c : Span) (body : List Nest) :
    Yields (PathsWithin (maxNesting + 1 - d)) (object d o c body) := by
  by_cases hd : d ≤ maxNesting
  · rw [object_of_le hd, Nat.succ_sub hd]
    exact (members_paths d _).map fun _ => Expr.pathsWithin_object
  · rw [object_of_lt (Nat.not_le.1 hd)]
    exact .error _
termination_by 8 * (weights body + 1) + 5
decreasing_by
  have := Nest.slicesWeight_dropEmptyLast_le (slices body)
  rw [Nest.slicesWeight_slices] at this
  omega

theorem members_paths (d : Nat) (runs : List (List Nest)) :
    Yields (fun ms => ∀ m ∈ ms, PathsWithin (maxNesting - d) (Member.value m)) (members d runs) := by
  match runs with
  | [] =>
    rw [members_nil]
    exact .ok nofun
  | run :: rest =>
    rw [members_cons]
    exact (member_paths d run).cons (members_paths d rest)
termination_by 8 * slicesWeight runs + 4
decreasing_by
  all_goals
    simp only [slicesWeight]
    omega

theorem member_paths (d : Nat) (run : List Nest) :
    Yields (fun m => PathsWithin (maxNesting - d) (Member.value m)) (member d run) := by
  match run with
  | [] =>
    rw [member_nil]
    exact .error _
  | first :: rest =>
    by_cases hs : first.isKind .spread
    · rw [member_spread hs]
      exact (value_paths d rest).map fun _ he => he
    have hs : first.isKind .spread = false := by simpa using hs
    cases hkey : first.key? with
    | none =>
      rw [member_keyless hs hkey]
      exact .error _
    | some key =>
      match rest with
      | [] =>
        rw [member_single hs hkey]
        split
        · exact .ok (Expr.pathsWithin_dynamic nofun)
        · exact .error _
      | next :: more =>
        by_cases hc : next.isKind .colon
        · rw [member_pair hs hkey hc]
          exact (value_paths d more).map fun _ he => he
        have hc : next.isKind .colon = false := by simpa using hc
        by_cases hg : next.isGroup .parenthesis
        · rw [member_method hs hkey hc hg]
          split
          · exact (dynamic_paths d next.span.start more).map fun _ he => he
          · exact .error _
        · have hg : next.isGroup .parenthesis = false := by simpa using hg
          rw [member_other hs hkey hc hg]
          exact .error _
termination_by 8 * (weights run + 1) + 3
decreasing_by
  all_goals
    have := weight_pos first
    simp only [weights_cons]
    omega

theorem array_paths (d : Nat) (o c : Span) (body : List Nest) :
    Yields (PathsWithin (maxNesting + 1 - d)) (array d o c body) := by
  by_cases hd : d ≤ maxNesting
  · rw [array_of_le hd, Nat.succ_sub hd]
    exact (elements_paths d _).map fun _ => Expr.pathsWithin_array
  · rw [array_of_lt (Nat.not_le.1 hd)]
    exact .error _
termination_by 8 * (weights body + 1) + 5
decreasing_by
  have := Nest.slicesWeight_filter_le (fun run => !run.isEmpty) (slices body)
  rw [Nest.slicesWeight_slices] at this
  omega

theorem elements_paths (d : Nat) (runs : List (List Nest)) :
    Yields (fun es => ∀ e ∈ es, PathsWithin (maxNesting - d) e) (elements d runs) := by
  match runs with
  | [] =>
    rw [elements_nil]
    exact .ok nofun
  | run :: rest =>
    rw [elements_cons]
    exact (element_paths d run).cons (elements_paths d rest)
termination_by 8 * slicesWeight runs + 4
decreasing_by
  all_goals
    simp only [slicesWeight]
    omega

theorem element_paths (d : Nat) (run : List Nest) :
    Yields (PathsWithin (maxNesting - d)) (element d run) := by
  match run with
  | [] =>
    rw [element]
    exact .error _
  | first :: rest =>
    rw [element]
    split
    · refine (value_paths d rest).map fun inner hinner => Expr.pathsWithin_dynamic ?_
      simpa using hinner
    · exact value_paths d (first :: rest)
termination_by 8 * (weights run + 1) + 3
decreasing_by
  all_goals
    have := weight_pos first
    simp only [weights_cons]
    omega

theorem value_paths (d : Nat) (run : List Nest) :
    Yields (PathsWithin (maxNesting - d)) (value d run) := by
  match run with
  | [] =>
    rw [value]
    exact .error _
  | first :: rest =>
    have hl := literal_paths d first
    have hdyn := dynamic_paths d first.span.start (first :: rest)
    rw [value]
    split
    · exact .error _
    · exact hdyn
    · rename_i expr he
      split
      · exact .ok (hl expr he)
      · exact hdyn
termination_by 8 * (weights run + 1) + 2
decreasing_by
  all_goals
    have := weight_pos first
    simp only [weights_cons]
    omega

theorem literal_paths (d : Nat) (n : Nest) :
    Yields (PathsWithin (maxNesting - d)) (literal d n) := by
  have hd : maxNesting + 1 - (d + 1) = maxNesting - d := by omega
  match n with
  | .token t =>
    rw [literal_token]
    split
    · exact .ok (Expr.pathsWithin_constant ‹_›)
    · exact .error _
  | .group .brace o c body =>
    rw [literal, ← hd]
    exact object_paths (d + 1) o c body
  | .group .bracket o c body =>
    rw [literal, ← hd]
    exact array_paths (d + 1) o c body
  | .group .parenthesis o c body =>
    rw [literal_parenthesis]
    exact .error _
termination_by 8 * weight n + 6
decreasing_by
  all_goals
    simp only [weight]
    omega

theorem dynamic_paths (d start : Nat) (run : List Nest) :
    Yields (PathsWithin (maxNesting - d)) (dynamic d start run) := by
  have hd : maxNesting + 1 - (d + 1) = maxNesting - d := by omega
  have hf := found_paths (d + 1) (run.takeWhile fun n => !n.isKind .semicolon)
  rw [dynamic]
  split
  · exact .error _
  · split
    · exact .error _
    · rename_i objects ho
      split
      · exact .error _
      · rw [← hd]
        exact .ok (Expr.pathsWithin_dynamic (hf objects ho))
termination_by 8 * (weights run + 1) + 1
decreasing_by
  have := weights_takeWhile_le (fun n => !n.isKind .semicolon) run
  omega

theorem found_paths (d : Nat) (ns : List Nest) :
    Yields (fun es => ∀ e ∈ es, PathsWithin (maxNesting + 1 - d) e) (found d ns) := by
  match ns with
  | [] =>
    rw [found_nil]
    exact .ok nofun
  | .token t :: rest =>
    rw [found_cons, found_token]
    exact (Yields.ok nofun).both (found_paths d rest)
  | .group delimiter o c body :: rest =>
    have hb := found_paths d body
    have ho := object_paths d o c body
    rw [found_cons, found_group]
    refine Yields.both ?_ (found_paths d rest)
    split
    · split
      · rename_i expr he
        exact .ok (by simpa using ho expr he)
      · exact hb
      · exact .error _
    · exact hb
termination_by 8 * (weights ns + 1)
decreasing_by
  all_goals
    simp only [weights_cons, weight]
    omega

end

end Reading
end DesignTokens.Script
