import DesignTokens.Proofs.Validation.Repetition
import DesignTokens.Proofs.Validation.Reports
import Mathlib.Algebra.Order.BigOperators.Group.List

/-! # What a check takes from a text

Only the values with a refused class are written anew, from their other pieces. Each of them gets
shorter, so that a text is accepted after it was checked often enough. -/
namespace DesignTokens.Validator
open Markup (Attribute Piece Replaces Segment Spaced Word attributes segments)
open Text (utf8Length)
open Validation (Result)
variable {v : Validator}

/-- A value with a refused class is put together from its other pieces, with a space between each
two of them. -/
def rewritten (v : Validator) (a : Attribute) : List Char :=
  if a.words.all fun word => v.accepts word.text then a.value
  else joined ((a.pieces.filter v.keeps).map fun piece => piece.word.text)

private theorem cleaned_eq : v.cleaned = Segment.replaced v.rewritten := by
  funext s
  cases s with
  | plain text => rfl
  | value a =>
    rw [cleaned, all_keeps]
    rfl

private theorem length_joined (texts : List (List Char)) :
    utf8Length (joined texts) = (texts.map fun text => utf8Length text + 1).sum - 1 := by
  induction texts with
  | nil => rfl
  | cons text texts ih =>
    cases texts with
    | nil => simp [joined]
    | cons next texts =>
      rw [joined] at ih ⊢
      rw [List.intercalate_cons_cons, Text.utf8Length_append, Text.utf8Length_append, ih]
      simp only [List.map_cons, List.sum_cons]
      have hspace : utf8Length [' '] = 1 := rfl
      omega

private theorem length_rewritten_lt {a : Attribute}
    (h : Spaced a.start (a.pieces.map Piece.word) a.value)
    (hrefused : (a.words.all fun word => v.accepts word.text) = false) :
    utf8Length (v.rewritten a) < utf8Length a.value := by
  obtain ⟨piece, hpiece, hkeeps⟩ := List.all_eq_false.1 ((all_keeps a.pieces).trans hrefused)
  let size (piece : Piece) : Nat := utf8Length piece.word.text + 1
  have hsplit : ((a.pieces.filter v.keeps).map size).sum +
      ((a.pieces.filter fun piece => !v.keeps piece).map size).sum = (a.pieces.map size).sum := by
    simpa using List.sum_map_filter_add_sum_map_filter_not (fun p => v.keeps p = true) size a.pieces
  have htaken : size piece ≤ ((a.pieces.filter fun piece => !v.keeps piece).map size).sum :=
    List.le_sum_of_mem (List.mem_map_of_mem (List.mem_filter.2 ⟨hpiece, by simpa using hkeeps⟩))
  have hpiece : 0 < utf8Length piece.word.text :=
    Text.utf8Length_pos (h.placed.text_ne_nil (List.mem_map_of_mem hpiece))
  have htotal : (a.pieces.map size).sum ≤ utf8Length a.value + 1 := by
    have hwords := h.sum_le
    rw [List.map_map] at hwords
    exact hwords
  have hnew : utf8Length (v.rewritten a) = ((a.pieces.filter v.keeps).map size).sum - 1 := by
    rw [rewritten, if_neg (by simp [hrefused]), length_joined, List.map_map]
    rfl
  have hsize : size piece = utf8Length piece.word.text + 1 := rfl
  omega

private theorem length_rewritten_le {a : Attribute}
    (h : Spaced a.start (a.pieces.map Piece.word) a.value) :
    utf8Length (v.rewritten a) ≤ utf8Length a.value := by
  cases hrefused : a.words.all fun word => v.accepts word.text with
  | true => rw [rewritten, if_pos hrefused]
  | false => exact (length_rewritten_lt h hrefused).le

/-- The values with a refused class are all that changes. -/
theorem replaces_code (source : String) :
    Replaces v.rewritten 0 (attributes source.toList) source.toList
      (v.checkSource source).code.toList := by
  rw [checkSource, String.toList_ofList, cleaned_eq]
  exact Markup.replaces_segments v.rewritten source.toList

theorem isValid_iff {source : String} :
    (v.checkSource source).isValid = true ↔ v.refused (segments source.toList) = [] := by
  rw [Result.isValid, List.isEmpty_iff, checkSource, List.filterMap_eq_nil_iff, refused,
    List.filter_eq_nil_iff]
  simp only [reject?_eq_none_iff, Bool.not_eq_true', Bool.not_eq_false]
  rfl

theorem checkSource_of_isValid {source : String} (h : (v.checkSource source).isValid = true) :
    v.checkSource source = ⟨source, []⟩ := checkSource_of_refused (isValid_iff.1 h)

private theorem exists_refused_value {source : String}
    (h : (v.checkSource source).isValid = false) :
    ∃ a ∈ attributes source.toList, (a.words.all fun word => v.accepts word.text) = false := by
  have hrefused : v.refused (segments source.toList) ≠ [] := by
    rw [Ne, ← isValid_iff, h]
    exact Bool.false_ne_true
  obtain ⟨word, hword⟩ := List.exists_mem_of_ne_nil _ hrefused
  obtain ⟨hmem, hrefuses⟩ := List.mem_filter.1 hword
  obtain ⟨a, ha, hword⟩ := List.mem_flatMap.1 hmem
  exact ⟨a, ha, List.all_eq_false.2 ⟨word, hword, by simpa using hrefuses⟩⟩

/-- A text with a refused class loses at least one byte. -/
theorem size_code_lt {source : String} (h : (v.checkSource source).isValid = false) :
    (v.checkSource source).code.utf8ByteSize < source.utf8ByteSize := by
  obtain ⟨a, ha, hrefused⟩ := exists_refused_value h
  have hlength := (replaces_code (v := v) source).length_lt
    (fun a ha => length_rewritten_le (Markup.spaced_pieces ha))
    ⟨a, ha, length_rewritten_lt (Markup.spaced_pieces ha) hrefused⟩
  rwa [Text.utf8Length_eq, Text.utf8Length_eq, String.ofList_toList, String.ofList_toList]
    at hlength

/-- A text is accepted after it was checked at most once for each of its bytes. -/
theorem exists_iterate (source : String) : ∃ n ≤ source.utf8ByteSize,
    let rest := (fun text => (v.checkSource text).code)^[n] source
    v.checkSource rest = ⟨rest, []⟩ := by
  induction hsize : source.utf8ByteSize using Nat.strong_induction_on generalizing source with
  | h size ih =>
    cases hvalid : (v.checkSource source).isValid with
    | true => exact ⟨0, Nat.zero_le size, checkSource_of_isValid hvalid⟩
    | false =>
      have hlt := hsize ▸ size_code_lt hvalid
      obtain ⟨n, hn, hrest⟩ := ih _ hlt _ rfl
      exact ⟨n + 1, hn.trans_lt hlt, hrest⟩

/-- Only the values with a refused class are written anew. A text that has one gets shorter by
that, and all others are left as they are, so that checking ends with a text that is accepted. -/
theorem rewrites_refused (v : Validator) (source : String) :
    Replaces v.rewritten 0 (attributes source.toList) source.toList
      (v.checkSource source).code.toList ∧
    ((v.checkSource source).isValid = true ↔ (v.checkSource source).code = source) ∧
    ((v.checkSource source).isValid = false →
      (v.checkSource source).code.utf8ByteSize < source.utf8ByteSize) ∧
    ∃ n ≤ source.utf8ByteSize, let rest := (fun text => (v.checkSource text).code)^[n] source
      v.checkSource rest = ⟨rest, []⟩ := by
  refine ⟨replaces_code source, ⟨fun h => ?_, fun h => ?_⟩, size_code_lt, exists_iterate source⟩
  · rw [checkSource_of_isValid h]
  · by_contra hvalid
    have hlt := size_code_lt (Bool.eq_false_of_not_eq_true hvalid)
    rw [h] at hlt
    exact Nat.lt_irrefl _ hlt

end DesignTokens.Validator
