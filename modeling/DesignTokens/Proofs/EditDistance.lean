import DesignTokens.Suggestion
import Mathlib.Order.Bounds.Basic
import Mathlib.Order.MinMax
import Mathlib.Data.List.Basic

/-! # The distance between two texts

The row behind some characters of a text holds the distances between these characters and every
leading part of the other text. A distance is the least cost of writing two texts side by side, and
this is the least number of edits that lead from the one to the other. -/
namespace DesignTokens.Suggestion

/-- A character is inserted, deleted or substituted. -/
inductive Edit : List Char → List Char → Prop
  | insert (before after : List Char) (c : Char) : Edit (before ++ after) (before ++ c :: after)
  | delete (before after : List Char) (c : Char) : Edit (before ++ c :: after) (before ++ after)
  | substitute (before after : List Char) (c d : Char) :
      Edit (before ++ c :: after) (before ++ d :: after)

/-- So many edits one after the other. -/
inductive Edits : Nat → List Char → List Char → Prop
  | nil {a : List Char} : Edits 0 a a
  | cons {n : Nat} {a b c : List Char} (h : Edit a b) (hrest : Edits n b c) : Edits (n + 1) a c

namespace Edit
variable {a b : List Char}

theorem symm (h : Edit a b) : Edit b a := by
  cases h with
  | insert before after c => exact .delete before after c
  | delete before after c => exact .insert before after c
  | substitute before after c d => exact .substitute before after d c

theorem behind (h : Edit a b) (c : Char) : Edit (c :: a) (c :: b) := by
  cases h with
  | insert before after d => exact .insert (c :: before) after d
  | delete before after d => exact .delete (c :: before) after d
  | substitute before after d e => exact .substitute (c :: before) after d e

theorem reverse (h : Edit a b) : Edit a.reverse b.reverse := by
  cases h with
  | insert before after c => simpa using Edit.insert after.reverse before.reverse c
  | delete before after c => simpa using Edit.delete after.reverse before.reverse c
  | substitute before after c d => simpa using Edit.substitute after.reverse before.reverse c d

end Edit

namespace Edits
variable {m n : Nat} {a b c : List Char}

theorem append (h : Edits m a b) (h' : Edits n b c) : Edits (m + n) a c := by
  induction h with
  | nil => rwa [Nat.zero_add]
  | cons hedit _ ih =>
    rw [Nat.succ_add]
    exact .cons hedit (ih h')

theorem concat (h : Edits n a b) (hedit : Edit b c) : Edits (n + 1) a c :=
  h.append (.cons hedit .nil)

theorem symm (h : Edits n a b) : Edits n b a := by
  induction h with
  | nil => exact .nil
  | cons hedit _ ih => exact ih.concat hedit.symm

theorem behind (h : Edits n a b) (c : Char) : Edits n (c :: a) (c :: b) := by
  induction h with
  | nil => exact .nil
  | cons hedit _ ih => exact .cons (hedit.behind c) ih

theorem reverse (h : Edits n a b) : Edits n a.reverse b.reverse := by
  induction h with
  | nil => exact .nil
  | cons hedit _ ih => exact .cons hedit.reverse ih

private theorem reverse_iff : Edits n a.reverse b.reverse ↔ Edits n a b :=
  ⟨fun h => by simpa using h.reverse, reverse⟩

end Edits

/-- What it costs to write a character opposite another one. -/
def cost (c d : Char) : Nat := if c = d then 0 else 1

@[simp] theorem cost_self (c : Char) : cost c c = 0 := if_pos rfl

private theorem cost_of_ne {c d : Char} (h : c ≠ d) : cost c d = 1 := if_neg h

private theorem cost_triangle (c d e : Char) : cost c e ≤ cost c d + cost d e := by
  unfold cost
  split <;> split <;> split <;> simp_all

/-- Two texts are written side by side at a cost. A character without one opposite costs one. -/
inductive Aligned : Nat → List Char → List Char → Prop
  | nil : Aligned 0 [] []
  | pair {n : Nat} {a b : List Char} (c d : Char) (h : Aligned n a b) :
      Aligned (n + cost c d) (c :: a) (d :: b)
  | insert {n : Nat} {a b : List Char} (d : Char) (h : Aligned n a b) : Aligned (n + 1) a (d :: b)
  | delete {n : Nat} {a b : List Char} (c : Char) (h : Aligned n a b) : Aligned (n + 1) (c :: a) b

namespace Aligned

theorem refl (a : List Char) : Aligned 0 a a := by
  induction a with
  | nil => exact nil
  | cons c a ih => simpa using ih.pair c c

private theorem inserts (b : List Char) : Aligned b.length [] b := by
  induction b with
  | nil => exact nil
  | cons d b ih => exact ih.insert d

private theorem deletes (a : List Char) : Aligned a.length a [] := by
  induction a with
  | nil => exact nil
  | cons c a ih => exact ih.delete c

variable {m n : Nat} {a b c : List Char}

theorem behind (h : Aligned n a b) (before : List Char) :
    Aligned n (before ++ a) (before ++ b) := by
  induction before with
  | nil => exact h
  | cons c before ih => simpa using ih.pair c c

private theorem exists_of_edit (h : Edit a b) : ∃ n ≤ 1, Aligned n a b := by
  cases h with
  | insert before after c => exact ⟨1, Nat.le_refl 1, ((refl after).insert c).behind before⟩
  | delete before after c => exact ⟨1, Nat.le_refl 1, ((refl after).delete c).behind before⟩
  | substitute before after c d =>
    refine ⟨0 + cost c d, ?_, ((refl after).pair c d).behind before⟩
    unfold cost
    split <;> omega

/-- A text in the middle can be left out: the columns of the two alignments are taken up in turn,
and a character of the middle text joins a column of the one to a column of the other. -/
theorem exists_trans {m n : Nat} {a b c : List Char} (h : Aligned m a b) (h' : Aligned n b c) :
    ∃ k ≤ m + n, Aligned k a c := by
  match h, h' with
  | h, .insert e h' =>
    obtain ⟨k, hk, hac⟩ := exists_trans h h'
    exact ⟨k + 1, by omega, hac.insert e⟩
  | .delete x h, h' =>
    obtain ⟨k, hk, hac⟩ := exists_trans h h'
    exact ⟨k + 1, by omega, hac.delete x⟩
  | .nil, .nil => exact ⟨0, Nat.le_refl _, nil⟩
  | .insert y h, .delete _ h' =>
    obtain ⟨k, hk, hac⟩ := exists_trans h h'
    exact ⟨k, by omega, hac⟩
  | .insert y h, .pair _ z h' =>
    obtain ⟨k, hk, hac⟩ := exists_trans h h'
    exact ⟨k + 1, by omega, hac.insert z⟩
  | .pair x y h, .delete _ h' =>
    obtain ⟨k, hk, hac⟩ := exists_trans h h'
    exact ⟨k + 1, by omega, hac.delete x⟩
  | .pair x y h, .pair _ z h' =>
    obtain ⟨k, hk, hac⟩ := exists_trans h h'
    have hcost := cost_triangle x y z
    exact ⟨k + cost x z, by omega, hac.pair x z⟩
termination_by a.length + b.length + c.length

private theorem edits (h : Aligned n a b) : Edits n a b := by
  induction h with
  | nil => exact .nil
  | @pair n a b c d _ ih =>
    by_cases hcd : c = d
    · subst hcd
      simpa using ih.behind c
    · rw [cost_of_ne hcd]
      exact .cons (.substitute [] a c d) (ih.behind d)
  | @insert _ a _ d _ ih => exact .cons (.insert [] a d) (ih.behind d)
  | @delete _ a _ c _ ih => exact .cons (.delete [] a c) ih

/-- Edits can be written down as one alignment. -/
theorem exists_of_edits (h : Edits n a b) : ∃ k ≤ n, Aligned k a b := by
  induction h with
  | @nil a => exact ⟨0, Nat.le_refl 0, refl a⟩
  | cons hedit _ ih =>
    obtain ⟨m, hm, hab⟩ := exists_of_edit hedit
    obtain ⟨n, hn, hbc⟩ := ih
    obtain ⟨k, hk, hac⟩ := hab.exists_trans hbc
    exact ⟨k, by omega, hac⟩

end Aligned

/-- The least cost of writing two texts side by side. -/
def distance : List Char → List Char → Nat
  | [], b => b.length
  | a, [] => a.length
  | c :: a, d :: b =>
    min (min (distance a (d :: b) + 1) (distance (c :: a) b + 1)) (distance a b + cost c d)

section
variable {n : Nat} {a b : List Char}

theorem distance_nil_left (b : List Char) : distance [] b = b.length := by
  rw [distance]

theorem distance_nil_right (a : List Char) : distance a [] = a.length := by
  cases a with
  | nil => rw [distance_nil_left]
  | cons c a => rw [distance.eq_2 _ (by simp)]

theorem distance_cons (c d : Char) (a b : List Char) : distance (c :: a) (d :: b) =
    min (min (distance a (d :: b) + 1) (distance (c :: a) b + 1)) (distance a b + cost c d) := by
  rw [distance]

private theorem distance_cons_left_le (c : Char) (a b : List Char) :
    distance (c :: a) b ≤ distance a b + 1 := by
  cases b with
  | nil => simp [distance_nil_right]
  | cons d b =>
    rw [distance_cons]
    omega

private theorem distance_cons_right_le (d : Char) (a b : List Char) :
    distance a (d :: b) ≤ distance a b + 1 := by
  cases a with
  | nil => simp [distance_nil_left]
  | cons c a =>
    rw [distance_cons]
    omega

private theorem distance_cons_cons_le (c d : Char) (a b : List Char) :
    distance (c :: a) (d :: b) ≤ distance a b + cost c d := by
  rw [distance_cons]
  omega

private theorem distance_le (h : Aligned n a b) : distance a b ≤ n := by
  induction h with
  | nil => simp [distance_nil_left]
  | @pair _ a b c d _ ih => exact (distance_cons_cons_le c d a b).trans (by omega)
  | @insert _ a b d _ ih => exact (distance_cons_right_le d a b).trans (by omega)
  | @delete _ a b c _ ih => exact (distance_cons_left_le c a b).trans (by omega)

private theorem aligned_distance (a b : List Char) : Aligned (distance a b) a b := by
  induction a, b using distance.induct with
  | case1 b =>
    rw [distance_nil_left]
    exact Aligned.inserts b
  | case2 a _ =>
    rw [distance_nil_right]
    exact Aligned.deletes a
  | case3 c a d b hdelete hinsert hpair =>
    rw [distance_cons]
    rcases min_choice (min (distance a (d :: b) + 1) (distance (c :: a) b + 1))
      (distance a b + cost c d) with h | h
    · rcases min_choice (distance a (d :: b) + 1) (distance (c :: a) b + 1) with h' | h'
      · rw [h, h']
        exact hdelete.delete c
      · rw [h, h']
        exact hinsert.insert d
    · rw [h]
      exact hpair.pair c d

/-- The least cost is the least number of edits. -/
theorem isLeast_distance (a b : List Char) : IsLeast {n | Edits n a b} (distance a b) := by
  refine ⟨(aligned_distance a b).edits, fun n h => ?_⟩
  obtain ⟨k, hk, haligned⟩ := Aligned.exists_of_edits h
  exact (distance_le haligned).trans hk

end

/-- The distances between a text and another one that grows by some characters in turn. Both are
held in reverse, since it is their last characters that the program compares. -/
def row (a b : List Char) : List Char → List Nat
  | [] => [distance a b]
  | d :: ds => distance a b :: row a (d :: b) ds

theorem row_eq_cons (a b ds : List Char) : row a b ds = distance a b :: (row a b ds).tail := by
  cases ds <;> rfl

private theorem row_nil_left (b ds : List Char) :
    row [] b ds = List.range' b.length (ds.length + 1) := by
  induction ds generalizing b with
  | nil => simp [row, distance_nil_left]
  | cons d ds ih =>
    rw [row, ih, distance_nil_left, List.length_cons, List.length_cons,
      List.range'_succ (s := b.length)]

private theorem extendRow_row (c : Char) (a b ds : List Char) :
    extendRow c (distance (c :: a) b) ds (row a b ds) = (row (c :: a) b ds).tail := by
  induction ds generalizing b with
  | nil => rfl
  | cons d ds ih =>
    rw [row, row_eq_cons a (d :: b), extendRow]
    have hhere : min (min (distance a (d :: b) + 1) (distance (c :: a) b + 1))
        (distance a b + if c = d then 0 else 1) = distance (c :: a) (d :: b) :=
      (distance_cons c d a b).symm
    rw [hhere, ← row_eq_cons, ih, ← row_eq_cons]
    rfl

private theorem nextRow_row (c : Char) (a ds : List Char) :
    nextRow ds (row a [] ds) c = row (c :: a) [] ds := by
  have hcorner : distance a [] + 1 = distance (c :: a) [] := by
    rw [distance_nil_right, distance_nil_right, List.length_cons]
  have hrow := extendRow_row c a [] ds
  rw [row_eq_cons a] at hrow ⊢
  rw [nextRow, hcorner, hrow, ← row_eq_cons]

/-- The row behind a whole text. -/
theorem foldl_nextRow (a cs ds : List Char) :
    cs.foldl (nextRow ds) (row a [] ds) = row (cs.reverse ++ a) [] ds := by
  induction cs generalizing a with
  | nil => rfl
  | cons c cs ih => rw [List.foldl_cons, nextRow_row, ih, List.reverse_cons, List.append_assoc,
      List.singleton_append]

private theorem getLast?_row (a b ds : List Char) :
    (row a b ds).getLast? = some (distance a (ds.reverse ++ b)) := by
  induction ds generalizing b with
  | nil => rfl
  | cons d ds ih =>
    rw [row, List.getLast?_cons, ih, List.reverse_cons, List.append_assoc, List.singleton_append]
    rfl

theorem editDistance_eq (a b : List Char) : editDistance a b = distance a.reverse b.reverse := by
  have hfirst : List.range (b.length + 1) = row [] [] b := by
    rw [row_nil_left, List.length_nil, List.range_eq_range']
  rw [editDistance, hfirst, foldl_nextRow, getLast?_row, List.append_nil, List.append_nil]
  rfl

theorem isLeast_editDistance (a b : List Char) : IsLeast {n | Edits n a b} (editDistance a b) := by
  have h := isLeast_distance a.reverse b.reverse
  rw [editDistance_eq]
  simpa only [Edits.reverse_iff] using h

/-- The edit distance is the least number of edits that lead from a text to another, and thereby a
distance: it vanishes just for equal texts, it is symmetric, and no way round is shorter. -/
theorem editDistance_isLeast (a b c : List Char) :
    IsLeast {n | Edits n a b} (editDistance a b) ∧
      (editDistance a b = 0 ↔ a = b) ∧
      editDistance a b = editDistance b a ∧
      editDistance a c ≤ editDistance a b + editDistance b c := by
  have hleast := isLeast_editDistance
  refine ⟨hleast a b, ⟨fun h => ?_, ?_⟩, ?_, ?_⟩
  · have hnone : Edits 0 a b := h ▸ (hleast a b).1
    cases hnone
    rfl
  · rintro rfl
    exact Nat.eq_zero_of_le_zero ((hleast a a).2 .nil)
  · exact Nat.le_antisymm ((hleast a b).2 (hleast b a).1.symm) ((hleast b a).2 (hleast a b).1.symm)
  · exact (hleast a c).2 ((hleast a b).1.append (hleast b c).1)

example : editDistance "kitten".toList "sitting".toList = 3 := by decide

end DesignTokens.Suggestion
