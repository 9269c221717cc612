import DesignTokens.Proofs.Script.Balance

/-! # The runs between commas

A body is cut at the commas outside of its groups. -/
namespace DesignTokens.Script
open Text (Span)
open Nest

theorem exists_token_of_isKind {n : Nest} {kind : TokenKind} (h : n.isKind kind) :
    ∃ span, n = .token ⟨kind, span⟩ := by
  cases n with
  | token t =>
    obtain ⟨k, span⟩ := t
    obtain rfl : k = kind := by simpa [isKind, kind?] using h
    exact ⟨span, rfl⟩
  | group d o c body => simp [isKind, kind?] at h

theorem slices_ne_nil (ns : List Nest) : slices ns ≠ [] := by
  cases ns with
  | nil => simp [slices]
  | cons n ns =>
    simp only [slices]
    split
    · simp
    · split <;> simp

section
variable {run : List Nest} (h : ∀ n ∈ run, n.isKind .comma = false)
include h

theorem slices_eq_singleton : slices run = [run] := by
  induction run with
  | nil => rfl
  | cons n ns ih =>
    rw [slices, if_neg (by simp [h n List.mem_cons_self]),
      ih fun m hm => h m (List.mem_cons_of_mem _ hm)]

theorem slices_append_comma (span : Span) (rest : List Nest) :
    slices (run ++ .token ⟨.comma, span⟩ :: rest) = run :: slices rest := by
  induction run with
  | nil =>
    rw [List.nil_append, slices]
    exact if_pos rfl
  | cons n ns ih =>
    rw [List.cons_append, slices, if_neg (by simp [h n List.mem_cons_self]),
      ih fun m hm => h m (List.mem_cons_of_mem _ hm)]

end

theorem mem_of_mem_slices {ns run : List Nest} (h : run ∈ slices ns) : ∀ n ∈ run, n ∈ ns := by
  induction ns generalizing run with
  | nil => simp_all [slices]
  | cons m ns ih =>
    simp only [slices] at h
    split at h
    · rcases List.mem_cons.1 h with rfl | h
      · simp
      · exact fun n hn => List.mem_cons_of_mem _ (ih h n hn)
    · split at h
      · obtain rfl := List.mem_singleton.1 h
        simp
      · rename_i slice rest hs
        rw [hs] at ih
        rcases List.mem_cons.1 h with rfl | h
        · intro n hn
          rcases List.mem_cons.1 hn with rfl | hn
          · exact List.mem_cons_self
          · exact List.mem_cons_of_mem _ (ih List.mem_cons_self n hn)
        · exact fun n hn => List.mem_cons_of_mem _ (ih (List.mem_cons_of_mem _ h) n hn)

theorem mem_of_mem_dropEmptyLast {runs : List (List Nest)} {run : List Nest}
    (h : run ∈ dropEmptyLast runs) : run ∈ runs := by
  fun_induction dropEmptyLast runs with
  | case1 => exact h
  | case2 => cases h
  | case3 slice rest _ ih =>
    rcases List.mem_cons.1 h with rfl | h
    · exact List.mem_cons_self
    · exact List.mem_cons_of_mem _ (ih h)

theorem dropEmptyLast_of_empty {runs : List (List Nest)} (h : runs.getLast? = some []) :
    dropEmptyLast runs = runs.dropLast := by
  fun_induction dropEmptyLast runs with
  | case1 => rfl
  | case2 => rfl
  | case3 slice rest hne ih =>
    cases rest with
    | nil => simp_all
    | cons next others =>
      rw [List.getLast?_cons_cons] at h
      rw [ih h]
      rfl

theorem dropEmptyLast_of_nonempty {runs : List (List Nest)} (h : runs.getLast? ≠ some []) :
    dropEmptyLast runs = runs := by
  fun_induction dropEmptyLast runs with
  | case1 => rfl
  | case2 => exact (h rfl).elim
  | case3 slice rest hne ih =>
    cases rest with
    | nil => rfl
    | cons next others =>
      rw [List.getLast?_cons_cons] at h
      rw [ih h]

/-- Tokens are runs with commas between them, in front of `stop`. -/
inductive Cut (stop : List Token) : List (List Nest) → List Token → Prop
  | last (run : List Nest) : Cut stop [run] (tokensOf run ++ stop)
  | cons (run : List Nest) (span : Span) {runs : List (List Nest)} (ts : List Token)
      (h : Cut stop runs ts) : Cut stop (run :: runs) (tokensOf run ++ ⟨.comma, span⟩ :: ts)

theorem cut_slices (ns : List Nest) (stop : List Token) :
    Cut stop (slices ns) (tokensOf ns ++ stop) := by
  induction ns with
  | nil => exact .last []
  | cons n ns ih =>
    simp only [slices]
    split
    · rename_i h
      obtain ⟨span, rfl⟩ := exists_token_of_isKind h
      exact .cons [] span _ ih
    · cases hs : slices ns with
      | nil => exact (slices_ne_nil ns hs).elim
      | cons slice rest =>
        rw [hs] at ih
        generalize hts : tokensOf ns ++ stop = ts at ih
        rw [tokensOf_cons, List.append_assoc, hts]
        cases ih with
        | last run => simpa using @Cut.last stop (n :: slice)
        | cons run span ts h => simpa using Cut.cons (n :: slice) span ts h

/-- A run that a comma or a closing delimiter ends. -/
structure IsItem (run : List Nest) : Prop where
  proper : AreProper run
  noComma : ∀ n ∈ run, n.isKind .comma = false

namespace IsItem

theorem nil : IsItem [] := ⟨by simp, by simp⟩

theorem head {n : Nest} {ns : List Nest} (h : IsItem (n :: ns)) :
    n.IsProper ∧ n.isKind .comma = false :=
  ⟨((areProper_cons n ns).1 h.proper).1, h.noComma n List.mem_cons_self⟩

theorem tail {n : Nest} {ns : List Nest} (h : IsItem (n :: ns)) : IsItem ns :=
  ⟨((areProper_cons n ns).1 h.proper).2, fun m hm => h.noComma m (List.mem_cons_of_mem _ hm)⟩

theorem cons {n : Nest} {ns : List Nest} (hp : n.IsProper) (hc : n.isKind .comma = false)
    (h : IsItem ns) : IsItem (n :: ns) :=
  ⟨(areProper_cons n ns).2 ⟨hp, h.proper⟩, by simpa [hc] using h.noComma⟩

end IsItem

theorem isItem_of_mem_slices {ns : List Nest} (h : AreProper ns) :
    ∀ run ∈ slices ns, IsItem run := by
  induction ns with
  | nil => simpa [slices] using IsItem.nil
  | cons n ns ih =>
    obtain ⟨hn, hns⟩ := (areProper_cons n ns).1 h
    simp only [slices]
    split
    · simpa using ⟨IsItem.nil, ih hns⟩
    · rename_i hc
      have hc : n.isKind .comma = false := by simpa using hc
      split
      · simpa using IsItem.nil.cons hn hc
      · rename_i slice rest hs
        rw [hs] at ih
        intro run hr
        rcases List.mem_cons.1 hr with rfl | hr
        · exact (ih hns slice List.mem_cons_self).cons hn hc
        · exact ih hns run (List.mem_cons_of_mem _ hr)

end DesignTokens.Script
