import DesignTokens.Text.Blank
import DesignTokens.Text.Position
import DesignTokens.Text.Slice
import Mathlib.Data.List.Induction
import Mathlib.Data.String.Basic

/-! # Offsets, parts, positions and blanks -/
namespace DesignTokens.Text

theorem utf8Length_eq (cs : List Char) : utf8Length cs = (String.ofList cs).utf8ByteSize := by
  rw [String.utf8ByteSize_ofList]
  induction cs with
  | nil => rfl
  | cons c cs ih => rw [utf8Length, String.utf8Len_cons, ih, Nat.add_comm]

theorem utf8Length_toList (s : String) : utf8Length s.toList = s.utf8ByteSize := by
  rw [utf8Length_eq, String.ofList_toList]

theorem utf8Length_pos {cs : List Char} (h : cs ≠ []) : 0 < utf8Length cs := by
  cases cs with
  | nil => exact absurd rfl h
  | cons c cs => exact Nat.add_pos_left c.utf8Size_pos _

/-- The offset behind any number of the first characters is on a boundary. -/
theorem isValid_utf8Length (before after : List Char) :
    (String.Pos.Raw.mk (utf8Length before)).IsValid (String.ofList (before ++ after)) := by
  rw [String.Pos.Raw.isValid_iff_exists_append]
  refine ⟨String.ofList before, String.ofList after, String.ofList_append, ?_⟩
  rw [utf8Length_eq]
  rfl

theorem utf8Length_reverse (cs : List Char) : utf8Length cs.reverse = utf8Length cs := by
  induction cs with
  | nil => rfl
  | cons c cs ih => simp [utf8Length, ih, Nat.add_comm]

/-- An offset behind a character is a successor. -/
theorem exists_utf8Size_add (c : Char) (offset : Nat) :
    ∃ n, c.utf8Size + offset = n + 1 ∧ n + 1 - c.utf8Size = offset := by
  have hpos := c.utf8Size_pos
  exact ⟨c.utf8Size + offset - 1, by omega, by omega⟩

theorem splitAt?_utf8Length (front rest : List Char) :
    splitAt? (utf8Length front) (front ++ rest) = some (front, rest) := by
  induction front with
  | nil => rw [utf8Length, splitAt?, List.nil_append]
  | cons c front ih =>
    obtain ⟨n, hn, hfront⟩ := exists_utf8Size_add c (utf8Length front)
    rw [utf8Length, hn, List.cons_append, splitAt?, if_pos (by omega), hfront, ih]
    rfl

/-- What stands behind a byte offset that is on a boundary. -/
def Behind (text : List Char) (offset : Nat) (rest : List Char) : Prop :=
  ∃ front, text = front ++ rest ∧ offset = utf8Length front

namespace Behind
variable {text rest : List Char} {offset : Nat}

theorem zero (text : List Char) : Behind text 0 text := ⟨[], rfl, rfl⟩

theorem append {part : List Char} (h : Behind text offset (part ++ rest)) :
    Behind text (offset + utf8Length part) rest := by
  obtain ⟨front, rfl, rfl⟩ := h
  exact ⟨front ++ part, (List.append_assoc _ _ _).symm, (utf8Length_append _ _).symm⟩

theorem tail {c : Char} (h : Behind text offset (c :: rest)) :
    Behind text (offset + c.utf8Size) rest := by
  rw [← List.singleton_append] at h
  exact h.append

theorem offset_eq (h : Behind text offset rest) :
    offset = utf8Length text - utf8Length rest := by
  obtain ⟨front, rfl, rfl⟩ := h
  rw [utf8Length_append, Nat.add_sub_cancel]

theorem offset_unique {offset' : Nat} (h : Behind text offset rest)
    (h' : Behind text offset' rest) : offset = offset' :=
  h.offset_eq.trans h'.offset_eq.symm

theorem charAt?_eq (h : Behind text offset rest) : charAt? offset text = rest.head? := by
  obtain ⟨front, rfl, rfl⟩ := h
  induction front with
  | nil => cases rest <;> rfl
  | cons c front ih =>
    obtain ⟨n, hn, hfront⟩ := exists_utf8Size_add c (utf8Length front)
    rw [utf8Length, hn, List.cons_append, charAt?, if_pos (by omega), hfront, ih]

theorem slice_eq {part : List Char} (h : Behind text offset (part ++ rest)) :
    slice text offset (offset + utf8Length part) = .ok part := by
  obtain ⟨front, rfl, rfl⟩ := h
  unfold slice
  rw [splitAt?_utf8Length]
  dsimp only
  rw [if_pos (Nat.le_add_right _ _), Nat.add_sub_cancel_left, splitAt?_utf8Length]

theorem sliceFrom_eq (h : Behind text offset rest) : sliceFrom text offset = .ok rest := by
  rw [← List.append_nil rest] at h
  rw [sliceFrom, ← h.slice_eq]
  obtain ⟨front, rfl, rfl⟩ := h
  rw [List.append_nil, utf8Length_append]

end Behind

theorem sliceTo_utf8Length (front rest : List Char) :
    sliceTo (front ++ rest) (utf8Length front) = .ok front := by
  rw [sliceTo, ← Nat.zero_add (utf8Length front)]
  exact (Behind.zero _).slice_eq

namespace Position

/-- The order in which the positions of a text are reached. -/
def Before (p q : Position) : Prop := p.line < q.line ∨ p.line = q.line ∧ p.column < q.column

theorem Before.trans {p q r : Position} (h : p.Before q) (h' : q.Before r) : p.Before r := by
  unfold Before at *
  omega

theorem before_advance (p : Position) (c : Char) : p.Before (p.advance c) := by
  unfold advance
  split
  · exact .inl (Nat.lt_succ_self _)
  · exact .inr ⟨rfl, Nat.lt_succ_self _⟩

theorem before_foldl {cs : List Char} (h : cs ≠ []) (p : Position) :
    p.Before (cs.foldl advance p) := by
  induction cs generalizing p with
  | nil => exact absurd rfl h
  | cons c cs ih =>
    cases cs with
    | nil => exact before_advance p c
    | cons d cs => exact (before_advance p c).trans (ih (List.cons_ne_nil d cs) _)

/-- What stands at a position of a text: the lines before it, each with its line feed, and the
characters before it in its own line lie in front. -/
def Marks (p : Position) (text behind : List Char) : Prop :=
  ∃ (lines : List (List Char)) (line : List Char),
    text = lines.flatMap (· ++ ['\n']) ++ (line ++ behind) ∧
      (∀ l ∈ lines, '\n' ∉ l) ∧ '\n' ∉ line ∧ p = ⟨lines.length + 1, line.length + 1⟩

theorem marks_foldl (before behind : List Char) :
    (before.foldl advance ⟨1, 1⟩).Marks (before ++ behind) behind := by
  induction before using List.reverseRecOn generalizing behind with
  | nil => exact ⟨[], [], rfl, by simp, by simp, rfl⟩
  | append_singleton before c ih =>
    obtain ⟨lines, line, htext, hlines, hline, hp⟩ := ih (c :: behind)
    rw [List.foldl_concat, hp, List.append_assoc, List.singleton_append, htext, advance]
    by_cases hc : c = '\n'
    · subst hc
      refine ⟨lines ++ [line], [], by simp, ?_, by simp, by simp⟩
      simpa [or_imp, forall_and] using ⟨hlines, hline⟩
    · rw [if_neg hc]
      refine ⟨lines, line ++ [c], by simp, hlines, ?_, by simp⟩
      simpa [hline] using Ne.symm hc

/-- The offset behind some characters is reached behind all of them. -/
theorem walk_utf8Length (p : Position) (before behind : List Char) :
    p.walk (utf8Length before) (before ++ behind) = before.foldl advance p := by
  induction before generalizing p with
  | nil => rw [utf8Length, walk, List.foldl_nil]
  | cons c before ih =>
    obtain ⟨n, hn, hbefore⟩ := exists_utf8Size_add c (utf8Length before)
    rw [utf8Length, hn, List.cons_append, walk, hbefore, ih, List.foldl_cons]

theorem ofOffset_eq {text before behind : List Char} {offset : Nat}
    (htext : text = before ++ behind) (hoffset : offset = utf8Length before) :
    ofOffset text offset = before.foldl advance ⟨1, 1⟩ := by
  rw [htext, hoffset]
  exact walk_utf8Length _ before behind

end Position

def blanks : List Char :=
  blankRanges.flatMap fun r => (List.range' r.1 (r.2 + 1 - r.1)).map Char.ofNat

/-- There are few blank characters, so that what holds of all of them can be checked. -/
theorem mem_blanks {c : Char} (h : isBlank c) : c ∈ blanks := by
  obtain ⟨r, hr, hc⟩ := List.any_eq_true.1 h
  obtain ⟨hlow, hhigh⟩ : r.1 ≤ c.toNat ∧ c.toNat ≤ r.2 := by simpa using hc
  refine List.mem_flatMap.2 ⟨r, hr, List.mem_map.2 ⟨c.toNat, ?_, Char.ofNat_toNat c⟩⟩
  rw [List.mem_range'_1]
  omega

theorem of_isBlank {p : Char → Bool} (h : blanks.all p) {c : Char} (hc : isBlank c) : p c :=
  List.all_eq_true.1 h c (mem_blanks hc)

end DesignTokens.Text
