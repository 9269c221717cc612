import DesignTokens.Proofs.Script.NestReading
import DesignTokens.Proofs.Script.Slices

/-! # Reading within the nesting limit

Nests that are not too high for the depth at which they are read give the same result at every such
depth, and no group inside them is too deep. -/
namespace DesignTokens.Script
open Text (Span)
open Nest

/-- Two results are the same, and neither is that a group is too deep. -/
def Settled {α : Type} (r r' : Reading α) : Prop := r = r' ∧ ∀ start, r ≠ .error (.tooDeep start)

/-- Two results are the same object literals. -/
def SettledFound (r r' : Except Nat (List Expr)) : Prop := r = r' ∧ ∀ start, r ≠ .error start

namespace Settled
variable {α β : Type} {r r' : Reading α}

theorem ok (a : α) : Settled (.ok a) (.ok a) := ⟨rfl, by simp⟩

theorem mismatch : Settled (.error .mismatch : Reading α) (.error .mismatch) := ⟨rfl, by simp⟩

theorem map (f : α → β) (h : Settled r r') : Settled (r.map f) (r'.map f) := by
  obtain ⟨rfl, hne⟩ := h
  refine ⟨rfl, fun start => ?_⟩
  cases r with
  | error failure => simpa [Except.map] using hne start
  | ok a => simp [Except.map]

theorem cons {s s' : Reading (List α)} (h : Settled r r') (hs : Settled s s') :
    Settled (r.cons s) (r'.cons s') := by
  obtain ⟨rfl, hne⟩ := h
  obtain ⟨rfl, hnes⟩ := hs
  refine ⟨rfl, fun start => ?_⟩
  cases r with
  | error failure => simpa [Reading.cons] using hne start
  | ok a =>
    cases s with
    | error failure => simpa [Reading.cons, Except.map] using hnes start
    | ok as => simp [Reading.cons, Except.map]

end Settled

namespace SettledFound

theorem nil : SettledFound (.ok []) (.ok []) := ⟨rfl, by simp⟩

theorem both {p p' q q' : Except Nat (List Expr)} (h : SettledFound p p')
    (h' : SettledFound q q') : SettledFound (Reading.both p q) (Reading.both p' q') := by
  obtain ⟨rfl, hp⟩ := h
  obtain ⟨rfl, hq⟩ := h'
  refine ⟨rfl, fun start => ?_⟩
  cases p with
  | error s => simpa [Reading.both] using hp start
  | ok inside =>
    cases q with
    | error s => simpa [Reading.both] using hq start
    | ok others => simp [Reading.both]

end SettledFound

theorem heights_le_of_subset {ms ns : List Nest} (h : ∀ n ∈ ms, n ∈ ns) :
    heights ms ≤ heights ns :=
  heights_le_iff.2 fun n hn => height_le_heights (h n hn)

namespace Reading

mutual

theorem object_settled {d d' k : Nat} (hd : d + k ≤ maxNesting) (hd' : d' + k ≤ maxNesting)
    (o c : Span) (body : List Nest) (hk : heights body ≤ k) :
    Settled (object d o c body) (object d' o c body) := by
  have hm := members_settled hd hd' (dropEmptyLast (slices body)) fun run hr =>
    Nat.le_trans (heights_le_of_subset (mem_of_mem_slices (mem_of_mem_dropEmptyLast hr))) hk
  rw [object_of_le (by omega), object_of_le (by omega)]
  exact hm.map _
termination_by 8 * (weights body + 1) + 5
decreasing_by
  have := slicesWeight_dropEmptyLast_le (slices body)
  rw [slicesWeight_slices] at this
  omega

theorem members_settled {d d' k : Nat} (hd : d + k ≤ maxNesting) (hd' : d' + k ≤ maxNesting)
    (runs : List (List Nest)) (hk : ∀ run ∈ runs, heights run ≤ k) :
    Settled (members d runs) (members d' runs) := by
  match runs with
  | [] =>
    rw [members_nil, members_nil]
    exact .ok _
  | run :: rest =>
    rw [members_cons, members_cons]
    exact (member_settled hd hd' run (hk run List.mem_cons_self)).cons
      (members_settled hd hd' rest fun r hr => hk r (List.mem_cons_of_mem _ hr))
termination_by 8 * slicesWeight runs + 4
decreasing_by
  all_goals
    simp only [slicesWeight]
    omega

theorem member_settled {d d' k : Nat} (hd : d + k ≤ maxNesting) (hd' : d' + k ≤ maxNesting)
    (run : List Nest) (hk : heights run ≤ k) : Settled (member d run) (member d' run) := by
  match run with
  | [] =>
    rw [member_nil, member_nil]
    exact .mismatch
  | first :: rest =>
    have hrest : heights rest ≤ k := Nat.le_trans (Nat.le_max_right _ _) hk
    by_cases hs : first.isKind .spread
    · rw [member_spread hs, member_spread hs]
      exact (value_settled hd hd' rest hrest).map _
    have hs : first.isKind .spread = false := by simpa using hs
    cases hkey : first.key? with
    | none =>
      rw [member_keyless hs hkey, member_keyless hs hkey]
      exact .mismatch
    | some key =>
      match rest with
      | [] =>
        rw [member_single hs hkey, member_single hs hkey]
        split
        · exact .ok _
        · exact .mismatch
      | next :: more =>
        have hmore : heights more ≤ k := Nat.le_trans (Nat.le_max_right _ _) hrest
        by_cases hc : next.isKind .colon
        · rw [member_pair hs hkey hc, member_pair hs hkey hc]
          exact (value_settled hd hd' more hmore).map _
        have hc : next.isKind .colon = false := by simpa using hc
        by_cases hg : next.isGroup .parenthesis
        · rw [member_method hs hkey hc hg, member_method hs hkey hc hg]
          split
          · exact (dynamic_settled hd hd' next.span.start more hmore).map _
          · exact Settled.mismatch.map _
        · have hg : next.isGroup .parenthesis = false := by simpa using hg
          rw [member_other hs hkey hc hg, member_other hs hkey hc hg]
          exact .mismatch
termination_by 8 * (weights run + 1) + 3
decreasing_by
  all_goals
    have := weight_pos first
    simp only [weights_cons]
    omega

theorem array_settled {d d' k : Nat} (hd : d + k ≤ maxNesting) (hd' : d' + k ≤ maxNesting)
    (o c : Span) (body : List Nest) (hk : heights body ≤ k) :
    Settled (array d o c body) (array d' o c body) := by
  have hm := elements_settled hd hd' ((slices body).filter fun run => !run.isEmpty) fun run hr =>
    Nat.le_trans (heights_le_of_subset (mem_of_mem_slices (List.mem_of_mem_filter hr))) hk
  rw [array_of_le (by omega), array_of_le (by omega)]
  exact hm.map _
termination_by 8 * (weights body + 1) + 5
decreasing_by
  have := slicesWeight_filter_le (fun run => !run.isEmpty) (slices body)
  rw [slicesWeight_slices] at this
  omega

theorem elements_settled {d d' k : Nat} (hd : d + k ≤ maxNesting) (hd' : d' + k ≤ maxNesting)
    (runs : List (List Nest)) (hk : ∀ run ∈ runs, heights run ≤ k) :
    Settled (elements d runs) (elements d' runs) := by
  match runs with
  | [] =>
    rw [elements_nil, elements_nil]
    exact .ok _
  | run :: rest =>
    rw [elements_cons, elements_cons]
    exact (element_settled hd hd' run (hk run List.mem_cons_self)).cons
      (elements_settled hd hd' rest fun r hr => hk r (List.mem_cons_of_mem _ hr))
termination_by 8 * slicesWeight runs + 4
decreasing_by
  all_goals
    simp only [slicesWeight]
    omega

theorem element_settled {d d' k : Nat} (hd : d + k ≤ maxNesting) (hd' : d' + k ≤ maxNesting)
    (run : List Nest) (hk : heights run ≤ k) : Settled (element d run) (element d' run) := by
  match run with
  | [] =>
    rw [element, element]
    exact .mismatch
  | first :: rest =>
    have hrest : heights rest ≤ k := Nat.le_trans (Nat.le_max_right _ _) hk
    rw [element, element]
    split
    · exact (value_settled hd hd' rest hrest).map _
    · exact value_settled hd hd' (first :: rest) hk
termination_by 8 * (weights run + 1) + 3
decreasing_by
  all_goals
    have := weight_pos first
    simp only [weights_cons]
    omega

theorem value_settled {d d' k : Nat} (hd : d + k ≤ maxNesting) (hd' : d' + k ≤ maxNesting)
    (run : List Nest) (hk : heights run ≤ k) : Settled (value d run) (value d' run) := by
  match run with
  | [] =>
    rw [value, value]
    exact .mismatch
  | first :: rest =>
    obtain ⟨hl, hne⟩ := literal_settled hd hd' first (Nat.le_trans (Nat.le_max_left _ _) hk)
    have hdyn := dynamic_settled hd hd' first.span.start (first :: rest) hk
    rw [value, value, ← hl]
    split
    · exact (hne _ ‹_›).elim
    · exact hdyn
    · split
      · exact .ok _
      · exact hdyn
termination_by 8 * (weights run + 1) + 2
decreasing_by
  all_goals
    have := weight_pos first
    simp only [weights_cons]
    omega

theorem literal_settled {d d' k : Nat} (hd : d + k ≤ maxNesting) (hd' : d' + k ≤ maxNesting)
    (n : Nest) (hk : n.height ≤ k) : Settled (literal d n) (literal d' n) := by
  match n with
  | .token t =>
    rw [literal_token, literal_token]
    split
    · exact .ok _
    · exact .mismatch
  | .group .brace o c body =>
    simp only [height_group] at hk
    rw [literal, literal]
    exact object_settled (k := k - 1) (by omega) (by omega) o c body (by omega)
  | .group .bracket o c body =>
    simp only [height_group] at hk
    rw [literal, literal]
    exact array_settled (k := k - 1) (by omega) (by omega) o c body (by omega)
  | .group .parenthesis o c body =>
    rw [literal_parenthesis, literal_parenthesis]
    exact .mismatch
termination_by 8 * weight n + 6
decreasing_by
  all_goals
    simp only [weight]
    omega

theorem dynamic_settled {d d' k : Nat} (hd : d + k ≤ maxNesting) (hd' : d' + k ≤ maxNesting)
    (start : Nat) (run : List Nest) (hk : heights run ≤ k) :
    Settled (dynamic d start run) (dynamic d' start run) := by
  have hd1 : d + 1 + k ≤ maxNesting + 1 := by omega
  have hd1' : d' + 1 + k ≤ maxNesting + 1 := by omega
  obtain ⟨hf, hne⟩ := found_settled hd1 hd1' (run.takeWhile fun n => !n.isKind .semicolon)
    (Nat.le_trans (heights_le_of_subset fun n hn => List.takeWhile_subset _ hn) hk)
  rw [dynamic, dynamic, ← hf]
  split
  · exact .mismatch
  · split
    · exact (hne _ ‹_›).elim
    · split
      · exact .mismatch
      · exact .ok _
termination_by 8 * (weights run + 1) + 1
decreasing_by
  have := weights_takeWhile_le (fun n => !n.isKind .semicolon) run
  omega

theorem found_settled {d d' k : Nat} (hd : d + k ≤ maxNesting + 1)
    (hd' : d' + k ≤ maxNesting + 1) (ns : List Nest) (hk : heights ns ≤ k) :
    SettledFound (found d ns) (found d' ns) := by
  match ns with
  | [] =>
    rw [found_nil, found_nil]
    exact .nil
  | .token t :: rest =>
    rw [found_cons, found_cons d', found_token, found_token]
    exact SettledFound.nil.both
      (found_settled hd hd' rest (Nat.le_trans (Nat.le_max_right _ _) hk))
  | .group delimiter o c body :: rest =>
    have hrest := found_settled hd hd' rest (Nat.le_trans (Nat.le_max_right _ _) hk)
    have hbody : heights body + 1 ≤ k := Nat.le_trans (Nat.le_max_left _ _) hk
    have hb := found_settled hd hd' body (by omega)
    rw [found_cons, found_cons d', found_group, found_group]
    refine SettledFound.both ?_ hrest
    split
    · have hinside : d + (k - 1) ≤ maxNesting := by omega
      have hinside' : d' + (k - 1) ≤ maxNesting := by omega
      obtain ⟨ho, hne⟩ := object_settled hinside hinside' o c body (by omega)
      rw [← ho]
      split
      · exact ⟨rfl, by simp⟩
      · exact hb
      · exact (hne _ ‹_›).elim
    · exact hb
termination_by 8 * (weights ns + 1) + 0
decreasing_by
  all_goals
    simp only [weights_cons, weight]
    omega

end

end Reading
end DesignTokens.Script
